import Mathlib.Data.Finset.Card
import Sage.Infer.Traverse

/-!
# Inference — unification computes a most general unifier

Unification of two types from a version that represents the store `S` ends in a version that
represents a store whose solutions are the solutions of `S` that equate the two types, or fails
when there are none.  The two unions that resolve a variable are `Represents.bind` and
`Represents.link`; every other write keeps the store.

* `unifyInProbe_spec` — the specification of one call, by induction on its fuel.
* `Narrows` — a step resolves variables of a finite set only, and resolves one or changes
  nothing, so the recursion ends (`unifyInProbe_ends`).
-/

namespace Sage

open Loop Terms

/-! ### Stores without error types -/

namespace Store

variable {S : Store} {x : InferVarIndex} {t : Ty}

def ErrorFree (S : Store) : Prop := ∀ x, (S.resolve x).ErrorFree

theorem ErrorFree.subst (h : S.ErrorFree) (ht : t.ErrorFree) : (t.subst S.resolve).ErrorFree :=
  Ty.all_subst.mpr (Ty.All.imp ht (fun _ => id) fun y _ _ => h y)

theorem ErrorFree.extend (h : S.ErrorFree) (ht : t.ErrorFree) (restrictions : Restrictions)
    (hocc : x ∉ (t.subst S.resolve).vars) : (S.extend restrictions hocc).ErrorFree := fun y => by
  refine Ty.all_subst.mpr (Ty.All.imp (h y) (fun _ => id) fun z _ _ => ?_)
  by_cases hz : z = x
  · subst hz
    rw [single_self]
    exact h.subst ht
  · rw [single_of_ne hz]
    exact Ty.all_inferVar.mpr trivial

/-! ### Resolving variables of a finite set -/

/-- `S'` equates what `S` equates and mentions no more of the variables outside `F`; when it
resolves more, it resolves a variable of `F`. -/
structure Narrows (F : Finset InferVarIndex) (S S' : Store) : Prop where
  equates : ∀ t u : Ty, t.subst S.resolve = u.subst S.resolve →
    t.subst S'.resolve = u.subst S'.resolve
  within : ∀ t : Ty, (∀ y ∈ (t.subst S.resolve).vars, y ∈ F) →
    ∀ y ∈ (t.subst S'.resolve).vars, y ∈ F
  unresolved : ∀ y, S'.Unresolved y → S.Unresolved y
  progress : S'.resolve = S.resolve ∨ ∃ y ∈ F, S.Unresolved y ∧ ¬ S'.Unresolved y

instance (y : InferVarIndex) : Decidable (S.Unresolved y) :=
  inferInstanceAs (Decidable (S.resolve y = .inferVar y))

/-- The variables of `F` that are still unresolved. -/
def open_ (S : Store) (F : Finset InferVarIndex) : Finset InferVarIndex := F.filter S.Unresolved

theorem open_congr {S' : Store} (h : S'.resolve = S.resolve) (F : Finset InferVarIndex) :
    S'.open_ F = S.open_ F :=
  Finset.filter_congr fun y _ => by rw [Unresolved, Unresolved, h]

namespace Narrows

variable {F : Finset InferVarIndex} {S' S'' : Store}

theorem of_resolve (h : S'.resolve = S.resolve) : Narrows F S S' where
  equates t u he := by rwa [h]
  within t := by rw [h]; exact id
  unresolved y hy := by rwa [Unresolved, ← h]
  progress := .inl h

theorem trans (h : Narrows F S S') (h' : Narrows F S' S'') : Narrows F S S'' where
  equates t u he := h'.equates t u (h.equates t u he)
  within t ht := h'.within t (h.within t ht)
  unresolved y hy := h.unresolved y (h'.unresolved y hy)
  progress := by
    rcases h.progress with e | ⟨y, hyF, hy, hy'⟩
    · rcases h'.progress with e' | ⟨y, hyF, hy, hy'⟩
      · exact .inl (e'.trans e)
      · exact .inr ⟨y, hyF, h.unresolved y hy, hy'⟩
    · exact .inr ⟨y, hyF, hy, fun hy'' => hy' (h'.unresolved y hy'')⟩

/-- Unless nothing was resolved, fewer variables are open. -/
theorem card_lt (h : Narrows F S S') (hne : S'.resolve ≠ S.resolve) :
    (S'.open_ F).card < (S.open_ F).card := by
  obtain ⟨y, hyF, hy, hy'⟩ := h.progress.resolve_left hne
  refine Finset.card_lt_card (Finset.ssubset_iff_of_subset ?_ |>.mpr ⟨y, ?_, ?_⟩)
  · exact fun z hz => Finset.mem_filter.mpr
      ⟨(Finset.mem_filter.mp hz).1, h.unresolved z (Finset.mem_filter.mp hz).2⟩
  · exact Finset.mem_filter.mpr ⟨hyF, hy⟩
  · exact fun hm => hy' (Finset.mem_filter.mp hm).2

theorem extend {restrictions : Restrictions} {hocc : x ∉ (t.subst S.resolve).vars}
    (hx : S.Unresolved x) (hxF : x ∈ F) (htF : ∀ y ∈ (t.subst S.resolve).vars, y ∈ F)
    (hu : ∀ y, (S.extend restrictions hocc).Unresolved y → S.Unresolved y) :
    Narrows F S (S.extend restrictions hocc) where
  equates u w he := by rw [extend_resolve, extend_resolve, he]
  within u hu y hy := by
    rw [extend_resolve] at hy
    obtain ⟨z, hz, hy⟩ := Ty.mem_vars_subst.mp hy
    by_cases hzx : z = x
    · subst hzx
      rw [single_self] at hy
      exact htF y hy
    · rw [single_of_ne hzx, Ty.mem_vars_inferVar] at hy
      exact hy ▸ hu z hz
  unresolved := hu
  progress := .inr ⟨x, hxF, hx, fun h => (extend_unresolved hocc h).1 rfl⟩

end Narrows

end Store

namespace VersionedEGraph

variable {g g₁ g' : VersionedEGraph} {v : Version} {S : Store}

/-! ### The unions that resolve a variable -/

namespace Represents

variable {X : Set InferVarIndex} {ceiling : Universe} {x y : InferVarIndex} {t : Ty}

/-- Pointing an unresolved variable at a type that does not mention it, and at nothing else. -/
theorem point (h : Represents g v S) (hl : Local v g g') (hx : S.Unresolved x)
    (hocc : x ∉ (t.subst S.resolve).vars)
    (hparent : g'.getParent v = Function.update (g.getParent v) (.inferVar x) (g.find v t))
    (hbound : ∀ z b, (g'.getBound v (.inferVar z)).ty = some b →
      (g.getBound v (.inferVar z)).ty = some b ∨ z = x ∧ b = t)
    (hdependents : (g'.view v).dependents = (g.view v).dependents) :
    Represents g' v (S.extend (g'.restrictions v) hocc) where
  wf := hl.wf h.wf
  lt := hl.length ▸ h.lt
  grounded := hl.grounded h.wf h.lt h.grounded
  resolves := by
    have hterm : (g.find v t).term.subst (fun z => (S.resolve z).term) = (t.subst S.resolve).term := by
      rw [← Ty.term_subst, h.subst_find]
    have hx' : x ∉ ((g.find v t).term.subst fun z => (S.resolve z).term).vars := by
      rw [hterm]; exact hocc
    have hroot := h.root_of_unresolved hx
    have hresolves := h.resolves.update_var names_term (Ty.term_inferVar x) hroot hx'
    rw [hparent]
    convert hresolves using 2 with z
    rw [hterm]
    refine (Ty.term_subst _ _).trans (congrArg (Term.subst · _) (funext fun w => ?_))
    by_cases hw : w = x
    · subst hw
      simp [Resolution.Resolves.single]
    · simp [Resolution.Resolves.single, Store.single_of_ne hw, hw]
  domain _ _ := rfl
  ceiling _ _ := rfl
  bound z b hb := by
    rw [Store.extend_resolve]
    rcases hbound z b hb with hb | ⟨rfl, rfl⟩
    · rw [h.bound z b hb]; rfl
    · have hz : (S.extend (g'.restrictions v) hocc).resolve z =
          (S.resolve z).subst (Store.single z (b.subst S.resolve)) := rfl
      rw [hz, show S.resolve z = .inferVar z from hx, Ty.subst_inferVar, Store.single_self,
        Store.subst_single_of_notMem hocc]
  dependents c d hd := h.dependents c d (by rwa [hdependents] at hd)

theorem setBoundIn_view (hg : g.WF) (hv : v < g.states.length) (b : Bound) :
    ∃ wakes revision, (g.setBoundIn v (.inferVar x) b).view v =
      { g.view v with
        bound := Function.update (g.view v).bound (.inferVar x) b
        wakes
        revision } := by
  have hview := view_setBoundIn hg hv x b
  by_cases hb : g.getBound v (.inferVar x) = b
  · rw [if_pos hb] at hview
    refine ⟨(g.view v).wakes, (g.view v).revision, ?_⟩
    rw [hview, ← hb, ← view_bound, Function.update_eq_self]
  · rw [if_neg hb] at hview
    exact ⟨_, _, hview⟩

theorem setBoundIn_versions (b : Bound) :
    (g.setBoundIn v (.inferVar x) b).versions = g.versions := by
  rw [setBoundIn]
  split <;> rfl

/-- Recording the bound of an unresolved variable and pointing it at the bound resolves it. -/
theorem bind {g₂ : VersionedEGraph} (h : Represents g v S) (hx : S.Unresolved x)
    (hr : (t.subst S.resolve).Rigid) (hocc : x ∉ (t.subst S.resolve).vars)
    (hg₂ : g.setBoundIn v (.inferVar x) (.exactly t) = g₂)
    (hg' : (g₂.union v (.inferVar x) t).2 = g') :
    Represents g' v (S.extend (g'.restrictions v) hocc) ∧
      g'.restrictions v = g.restrictions v := by
  obtain ⟨wakes, revision, hview⟩ := setBoundIn_view h.wf h.lt (x := x) (.exactly t)
  have hversions := setBoundIn_versions (g := g) (v := v) (x := x) (.exactly t)
  have hloc := Local.setBoundIn g v (.inferVar x) (.exactly t)
  rw [hg₂] at hview hversions hloc
  have hfind : g₂.find v = g.find v := by
    refine find_congr h.grounded ?_
    funext s
    rw [← view_parent, hview, view_parent]
  have hfx : g.find v (.inferVar x) = .inferVar x :=
    h.find_eq_inferVar.mpr ((Ty.subst_inferVar _ _).trans hx)
  have hne : g.find v (.inferVar x) ≠ g.find v t := by
    rw [hfx]
    intro e
    have hft := h.find_rigid.mpr hr
    rw [← e] at hft
    exact hft.elim
  have hview' := view_union (hloc.wf h.wf) (hloc.length ▸ h.lt) (hfind ▸ hne)
  have hversions' := union_versions g₂ v (.inferVar x) t
  have hloc' := Local.union g₂ v (.inferVar x) t
  rw [hg'] at hview' hversions' hloc'
  rw [hview, hfind, hfx] at hview'
  refine ⟨h.point (hloc.trans hloc') hx hocc ?_ (fun z b hb => ?_) (by rw [hview']),
    restrictions_congr (hversions'.trans hversions) (by rw [hview']) (by rw [hview'])⟩
  · funext s
    rw [← view_parent, hview']
    rfl
  · rw [← view_bound, hview'] at hb
    by_cases hz : z = x
    · subst hz
      simp only [Function.update_self, Bound.ty, Option.some.injEq] at hb
      exact .inr ⟨rfl, hb.symm⟩
    · have hne : Ty.inferVar z ≠ .inferVar x := fun e => hz (Ty.inferVar.inj e)
      simp only [Function.update_of_ne hne] at hb
      exact .inl hb

theorem setDomainIn_view {ty : Ty} (hg : g.WF) (hv : v < g.states.length)
    (hroot : g.find v ty = .inferVar y) (hty : g.find v (.inferVar y) = .inferVar y)
    (m : InferDomain) :
    ((g.setDomainIn v ty m).view v).parent = (g.view v).parent ∧
      ((g.setDomainIn v ty m).view v).bound = (g.view v).bound ∧
      ((g.setDomainIn v ty m).view v).ceiling = (g.view v).ceiling ∧
      ((g.setDomainIn v ty m).view v).dependents = (g.view v).dependents ∧
      ∀ z, ((g.setDomainIn v ty m).restrictions v).domain z =
        if z = y then m else (g.restrictions v).domain z := by
  have hview := view_setDomainIn hg hv ty hroot m
  have hversions : (g.setDomainIn v ty m).versions = g.versions := by
    simp only [setDomainIn, hroot]
    split <;> rfl
  by_cases hd : g.effectiveDomain v (.inferVar y) = some m
  · rw [if_pos hd] at hview
    have hr := restrictions_congr hversions (by rw [hview]) (by rw [hview])
    refine ⟨by rw [hview], by rw [hview], by rw [hview], by rw [hview], fun z => ?_⟩
    rw [hr]
    split
    · rename_i hz
      subst hz
      exact Option.some.inj ((effectiveDomain_of_root hty).symm.trans hd)
    · rfl
  · rw [if_neg hd] at hview
    refine ⟨by rw [hview], by rw [hview], by rw [hview], by rw [hview], fun z => ?_⟩
    simp only [restrictions, hview, hversions]
    by_cases hz : z = y
    · subst hz; simp
    · simp [hz]

/-- A union of two unresolved classes points the first one at the second. -/
theorem union_vars (h : Represents g v S) (hx : S.Unresolved x) (hy : S.Unresolved y)
    (hyx : y ≠ x) :
    (g.union v (.inferVar x) (.inferVar y)).1 = .inferVar y ∧
      (∃ worklist wakes revision, (g.union v (.inferVar x) (.inferVar y)).2.view v =
        { g.view v with
          parent := Function.update (g.view v).parent (.inferVar x) (.inferVar y)
          worklist, wakes, revision }) ∧
      (g.union v (.inferVar x) (.inferVar y)).2.find v (.inferVar y) = .inferVar y := by
  have hf : ∀ {z}, S.Unresolved z → g.find v (.inferVar z) = .inferVar z := fun hz =>
    h.find_eq_inferVar.mpr ((Ty.subst_inferVar _ _).trans hz)
  have hyx' : Ty.inferVar y ≠ .inferVar x := fun e => hyx (Ty.inferVar.inj e)
  have hne : g.find v (.inferVar x) ≠ g.find v (.inferVar y) := by
    rw [hf hx, hf hy]; exact hyx'.symm
  have hview := view_union h.wf h.lt hne
  rw [hf hx, hf hy] at hview
  refine ⟨by rw [union_fst hne, hf hx, hf hy]; rfl, ⟨_, _, _, hview⟩, find_of_root ?_⟩
  rw [← view_parent, hview]
  exact (Function.update_of_ne hyx' _ _).trans (h.root_of_unresolved hy)

/-- Linking two unresolved variables resolves the first one. -/
theorem link {m : InferDomain} (h : Represents g v S) (hx : S.Unresolved x)
    (hy : S.Unresolved y) (hocc : x ∉ ((Ty.inferVar y).subst S.resolve).vars)
    (hg' : (g.union v (.inferVar x) (.inferVar y)).2.setDomainIn v
      (g.union v (.inferVar x) (.inferVar y)).1 m = g') :
    Represents g' v (S.extend (g'.restrictions v) hocc) ∧
      (∀ z, (g'.restrictions v).domain z = if z = y then m else (g.restrictions v).domain z) ∧
      (g'.restrictions v).ceiling = (g.restrictions v).ceiling := by
  have hsy : (Ty.inferVar y).subst S.resolve = .inferVar y := (Ty.subst_inferVar _ _).trans hy
  have hyx : y ≠ x := fun e => hocc (by rw [hsy, e]; simp)
  obtain ⟨hfst, ⟨_, _, _, hview⟩, hroot⟩ := h.union_vars hx hy hyx
  rw [hfst] at hg'
  have hloc := Local.union g v (.inferVar x) (.inferVar y)
  have hversions := union_versions g v (.inferVar x) (.inferVar y)
  generalize (g.union v (.inferVar x) (.inferVar y)).2 = g₂ at hview hloc hversions hg' hroot
  have hr₂ : g₂.restrictions v = g.restrictions v :=
    restrictions_congr hversions (by rw [hview]) (by rw [hview])
  obtain ⟨hparent, hbound, hceiling, hdependents, hdomain⟩ :=
    setDomainIn_view (hloc.wf h.wf) (hloc.length ▸ h.lt) hroot hroot m
  have hloc' := hloc.trans (Local.setDomainIn g₂ v (.inferVar y) m)
  have hversions' : (g₂.setDomainIn v (.inferVar y) m).versions = g.versions := by
    rw [← hversions]
    simp only [setDomainIn, hroot]
    split <;> rfl
  rw [hg'] at hparent hbound hceiling hdependents hdomain hloc' hversions'
  refine ⟨h.point hloc' hx hocc ?_ (fun z b hb => ?_) ?_, fun z => ?_, ?_⟩
  · funext s
    rw [← view_parent, hparent, hview, h.find_eq_inferVar.mpr hsy]
    rfl
  · rw [← view_bound, hbound, hview] at hb
    exact .inl hb
  · rw [hdependents, hview]
  · rw [hdomain, hr₂]
  · funext z
    simp only [restrictions, currentUniverse_eq, hceiling, hversions', hview]

end Represents

/-! ### Domains -/

section Domains

variable {x y : InferVarIndex} {left right : Ty} (h : Represents g v S)
include h

theorem compatibleDomain_var_rigid (hx : left.subst S.resolve = .inferVar x)
    (hr : (right.subst S.resolve).Rigid) :
    ((S.restrictions.domain x).admits (right.subst S.resolve) = true ∧
      g.compatibleDomain v left right = .ok none) ∨
    (¬ (S.restrictions.domain x).admits (right.subst S.resolve) = true ∧
      ∃ e, g.compatibleDomain v left right = .error e) := by
  have hl := h.effectiveDomain_of_var ((h.subst_find left).trans hx)
  have hr' := h.effectiveDomain_of_rigid ((h.subst_find right).symm ▸ hr)
  have ha : (S.restrictions.domain x).admits (g.find v right) =
      (S.restrictions.domain x).admits (right.subst S.resolve) := by
    rw [← h.subst_find, InferDomain.admits_subst _ (h.find_rigid.mpr hr)]
  simp only [compatibleDomain, hl, hr', ha]
  split
  · rename_i hd; exact .inl ⟨hd, rfl⟩
  · rename_i hd; exact .inr ⟨hd, _, rfl⟩

theorem compatibleDomain_rigid_var (hr : (left.subst S.resolve).Rigid)
    (hx : right.subst S.resolve = .inferVar x) :
    ((S.restrictions.domain x).admits (left.subst S.resolve) = true ∧
      g.compatibleDomain v left right = .ok none) ∨
    (¬ (S.restrictions.domain x).admits (left.subst S.resolve) = true ∧
      ∃ e, g.compatibleDomain v left right = .error e) := by
  have hl := h.effectiveDomain_of_rigid ((h.subst_find left).symm ▸ hr)
  have hr' := h.effectiveDomain_of_var ((h.subst_find right).trans hx)
  have ha : (S.restrictions.domain x).admits (g.find v left) =
      (S.restrictions.domain x).admits (left.subst S.resolve) := by
    rw [← h.subst_find, InferDomain.admits_subst _ (h.find_rigid.mpr hr)]
  simp only [compatibleDomain, hl, hr', ha]
  split
  · rename_i hd; exact .inl ⟨hd, rfl⟩
  · rename_i hd; exact .inr ⟨hd, _, rfl⟩

theorem compatibleDomain_var_var (hx : left.subst S.resolve = .inferVar x)
    (hy : right.subst S.resolve = .inferVar y) :
    (∃ m, (S.restrictions.domain x).intersect (S.restrictions.domain y) = some m ∧
      g.compatibleDomain v left right = .ok (some m)) ∨
    ((S.restrictions.domain x).intersect (S.restrictions.domain y) = none ∧
      ∃ e, g.compatibleDomain v left right = .error e) := by
  have hl := h.effectiveDomain_of_var ((h.subst_find left).trans hx)
  have hr := h.effectiveDomain_of_var ((h.subst_find right).trans hy)
  simp only [compatibleDomain, hl, hr]
  split
  · rename_i m hm; exact .inl ⟨m, hm, rfl⟩
  · rename_i hm; exact .inr ⟨hm, _, rfl⟩

end Domains

/-! ### One call of unification -/

section Unify

variable {U : GenericParam → Universe} {F : Finset InferVarIndex} {r : Except UnifyError Unit}
  {eqs eqs' : (InferVarIndex → Ty) → Prop}

/-- The resolved type mentions variables of `F` only. -/
def Covers (F : Finset InferVarIndex) (S : Store) (t : Ty) : Prop :=
  ∀ y ∈ (t.subst S.resolve).vars, y ∈ F

theorem Covers.find {t : Ty} (ht : Covers F S t) (h : Represents g v S) :
    Covers F S (g.find v t) := fun y hy => ht y (h.subst_find t ▸ hy)

theorem Represents.errorFree_find {t : Ty} (h : Represents g v S) (hf : S.ErrorFree)
    (ht : t.ErrorFree) : (g.find v t).ErrorFree := by
  have hfree := hf.subst ht
  rw [← h.subst_find] at hfree
  exact Ty.All.imp (Ty.all_subst.mp hfree) (fun _ => id) fun _ _ _ => trivial

theorem Covers.child {t c : Ty} (h : Covers F S t) (hc : c ∈ (decompose t).children) :
    Covers F S c := fun y hy => by
  have hr := Ty.rigid_of_mem_children hc
  obtain ⟨z, hz, hy⟩ := Ty.mem_vars_subst.mp hy
  exact h y (Ty.mem_vars_subst.mpr ⟨z, (Ty.mem_vars_iff hr).mpr ⟨c, hc, hz⟩, hy⟩)

/-- What a call does to the store `S`.  It ends in a state that represents a store, which
equates what the call was asked to when it succeeds.  Without error types in sight the new
store has exactly the solutions that meet the equations, and after a failure `S` has none. -/
structure Unified (U : GenericParam → Universe) (F : Finset InferVarIndex) (v : Version)
    (S : Store) (free : Prop) (eqs : (InferVarIndex → Ty) → Prop) (r : Except UnifyError Unit)
    (g' : VersionedEGraph) (S' : Store) : Prop where
  represents : Represents g' v S'
  narrows : S.Narrows F S'
  equates : r = .ok () → eqs S'.resolve
  errorFree : r = .ok () → S.ErrorFree → free → S'.ErrorFree
  solution_iff : r = .ok () → S.ErrorFree → free →
    ∀ Γ θ, S'.Solution U Γ θ ↔ S.Solution U Γ θ ∧ eqs θ
  not_solution : ∀ e, r = .error e → S.ErrorFree → free →
    ∀ Γ θ, S.Solution U Γ θ → ¬ eqs θ

variable {free free' : Prop} {S' : Store}

theorem Unified.congr (h : Unified U F v S free eqs r g' S')
    (hfree : S.ErrorFree → free' → free)
    (he : ∀ θ, (∀ x, (S.resolve x).subst θ = θ x) → (eqs θ ↔ eqs' θ)) :
    Unified U F v S free' eqs' r g' S' where
  represents := h.represents
  narrows := h.narrows
  equates hr := (he _ fun x => by
    have := h.narrows.equates (S.resolve x) (.inferVar x)
      ((S.idempotent x).trans (Ty.subst_inferVar _ _).symm)
    rwa [Ty.subst_inferVar] at this).mp (h.equates hr)
  errorFree hr hf hx := h.errorFree hr hf (hfree hf hx)
  solution_iff hr hf hx Γ θ := (h.solution_iff hr hf (hfree hf hx) Γ θ).trans
    (and_congr_right fun hs => he θ hs.factors)
  not_solution e hr hf hx Γ θ hs hq :=
    h.not_solution e hr hf (hfree hf hx) Γ θ hs ((he θ hs.factors).mpr hq)

/-- No write at all, when the equations hold already. -/
theorem Unified.refl (h : Represents g' v S)
    (he : ∀ θ, (∀ x, (S.resolve x).subst θ = θ x) → eqs θ) :
    Unified U F v S free eqs (.ok ()) g' S where
  represents := h
  narrows := .of_resolve rfl
  equates _ := he _ S.idempotent
  errorFree _ hf _ := hf
  solution_iff _ _ _ Γ θ := ⟨fun hs => ⟨hs, he θ hs.factors⟩, And.left⟩
  not_solution e hr := by cases hr

/-- An error, whatever was written to the ceilings before. -/
theorem Unified.error {e : UnifyError} (h : Represents g' v S') (hr : S'.resolve = S.resolve)
    (he : S.ErrorFree → free → ∀ Γ θ, S.Solution U Γ θ → ¬ eqs θ) :
    Unified U F v S free eqs (.error e) g' S' where
  represents := h
  narrows := .of_resolve hr
  equates hr := by cases hr
  errorFree hr := by cases hr
  solution_iff hr := by cases hr
  not_solution _ _ := he

theorem unified_bindVariable {fuel : Nat} {x : InferVarIndex} {t : Ty} (h : Represents g v S)
    (hx : S.Unresolved x) (hxF : x ∈ F) (ht : Covers F S t) (hr : (t.subst S.resolve).Rigid)
    (hd : (S.restrictions.domain x).admits (t.subst S.resolve) = true)
    (hrun : g.bindVariable fuel v (.inferVar x) x t = some (r, g')) :
    ∃ S', Unified g.placeholderUniverse F v S t.ErrorFree (fun θ => θ x = t.subst θ) r g' S' := by
  simp only [bindVariable] at hrun
  split at hrun
  · cases hrun
  · rename_i hocc
    simp only [Option.some.injEq, Prod.mk.injEq] at hrun
    obtain ⟨rfl, rfl⟩ := hrun
    exact ⟨S, .error h rfl fun _ _ Γ θ hs =>
      Store.ne_of_occurs hs hr ((h.occursIn_iff hocc).mp rfl)⟩
  rename_i hocc
  have hnotMem : x ∉ (t.subst S.resolve).vars := fun hm => by
    cases (h.occursIn_iff hocc).mpr hm
  split at hrun
  · cases hrun
  · rename_i hacc
    simp only [Option.some.injEq, Prod.mk.injEq] at hrun
    obtain ⟨rfl, rfl⟩ := hrun
    have hl := (makeAccessible_spec fuel t g S [] _ _ _ h hacc).lowered
    refine ⟨_, .error (hl.represents h) rfl fun _ _ Γ θ hs => Store.ne_of_leak hs hx fun hall => ?_⟩
    rw [h.ceiling x hx] at hall
    exact makeAccessible_error h hacc (Ty.all_accessible_iff.mp hall).2
  · rename_i hacc
    simp only [Option.some.injEq, Prod.mk.injEq] at hrun
    obtain ⟨rfl, hg'⟩ := hrun
    obtain ⟨hl, hheads, hceiling⟩ := makeAccessible_ok h hacc
    have h₁ := hl.represents h
    obtain ⟨hrep, hrestrictions⟩ := h₁.bind hx hr hnotMem rfl hg'
    have hrep : Represents g' v (S.extend (g'.restrictions v) hnotMem) := hrep
    refine ⟨_, hrep, ?_, fun _ => ?_, fun _ hf ht => hf.extend ht _ hnotMem, fun _ hf ht Γ θ => ?_,
      by simp⟩
    · refine .extend hx hxF ht fun y hy => ?_
      obtain ⟨-, hy | hy⟩ := Store.extend_unresolved hnotMem hy
      · exact hy
      · rw [hy] at hr; exact hr.elim
    · exact ((Store.extend_factors hnotMem hx).mp (Store.idempotent _)).2
    · refine Store.bind_solution hnotMem hx hr hd ?_ ?_ ?_
      · rw [h.ceiling x hx]
        exact Ty.all_accessible_iff.mpr ⟨hf.subst ht, hheads⟩
      · intro y hy _
        rw [hrestrictions, h.domain y hy]
        simp only [restrictions, hl.domain, hl.versions]
      · intro y hy _
        rw [hrestrictions, h.ceiling y hy, h.ceiling x hx]
        split
        · rename_i hmem; exact hceiling y hmem
        · rename_i hmem; exact hl.eq_of_notMem hmem

/-- Lowering two variables to one ceiling. -/
theorem lowered_pair {x y : InferVarIndex} {c : Universe} {g₂ : VersionedEGraph}
    (h : Represents g v S)
    (hg₂ : (g.lowerUniverse v x c).lowerUniverse v y c = g₂) :
    Lowered v {x, y} c g g₂ ∧ g₂.currentUniverse v y ≤ c := by
  obtain ⟨hl₁, -⟩ := Lowered.lowerUniverse (X := {x, y}) (x := x) h.wf h.lt c (by simp)
  have h₁ := hl₁.represents h
  obtain ⟨hl₂, hle⟩ := Lowered.lowerUniverse (X := {x, y}) (x := y) h₁.wf h₁.lt c (by simp)
  rw [hg₂] at hl₂ hle
  exact ⟨hl₁.trans hl₂, hle⟩

theorem unified_unifyVariables {x y : InferVarIndex} (h : Represents g v S)
    (hx : S.Unresolved x) (hy : S.Unresolved y) (hxy : y ≠ x) (hxF : x ∈ F) (hyF : y ∈ F)
    (hrun : g.unifyVariables v (.inferVar x) (.inferVar y) x y = some (r, g')) :
    ∃ S', Unified g.placeholderUniverse F v S True (fun θ => θ x = θ y) r g' S' := by
  have hsx : (Ty.inferVar x).subst S.resolve = .inferVar x := (Ty.subst_inferVar _ _).trans hx
  have hsy : (Ty.inferVar y).subst S.resolve = .inferVar y := (Ty.subst_inferVar _ _).trans hy
  simp only [unifyVariables] at hrun
  rcases compatibleDomain_var_var h hsx hsy with ⟨m, hm, hd⟩ | ⟨hm, e, hd⟩
  · rw [hd] at hrun
    simp only [Option.some.injEq, Prod.mk.injEq, Option.getD_some] at hrun
    obtain ⟨rfl, hg'⟩ := hrun
    have hocc : x ∉ ((Ty.inferVar y).subst S.resolve).vars := by
      rw [hsy, Ty.mem_vars_inferVar]; exact hxy.symm
    obtain ⟨hl, hle⟩ := lowered_pair (x := x) (y := y)
      (c := min (g.currentUniverse v x) (g.currentUniverse v y)) h rfl
    generalize (g.lowerUniverse v x _).lowerUniverse v y _ = g₂ at hl hle hg'
    have h₂ := hl.represents h
    obtain ⟨hrep, hdomain, hceiling⟩ := h₂.link hx hy hocc hg'
    have hrep : Represents g' v (S.extend (g'.restrictions v) hocc) := hrep
    refine ⟨_, hrep, ?_, fun _ => ?_, fun _ hf _ => hf.extend (Ty.all_inferVar.mpr trivial) _ hocc,
      fun _ _ _ Γ θ => ?_, by simp⟩
    · refine .extend hx hxF (fun z hz => ?_) fun z hz => ?_
      · rw [hsy, Ty.mem_vars_inferVar] at hz
        exact hz ▸ hyF
      · obtain ⟨-, hz | hz⟩ := Store.extend_unresolved hocc hz
        · exact hz
        · rw [hsy, Ty.inferVar.injEq] at hz
          exact hz ▸ hy
    · have he := ((Store.extend_factors hocc hx).mp
        (Store.idempotent (S.extend (g'.restrictions v) hocc))).2
      rwa [Ty.subst_inferVar] at he
    · rw [Store.link_solution hocc hx hy hsy hm ?_ ?_, Ty.subst_inferVar]
      · intro z hz _
        rw [hdomain, h.domain z hz]
        simp only [restrictions, hl.domain, hl.versions]
      · intro z hz hzx
        rw [hceiling, h.ceiling z hz, h.ceiling x hx, h.ceiling y hy]
        split
        · rename_i hzy
          subst hzy
          exact (hl.eq_min hle).trans (Nat.min_eq_right (Nat.min_le_right _ _))
        · rename_i hzy
          exact hl.eq_of_notMem (by simp [hzx, hzy])
  · rw [hd] at hrun
    simp only [Option.some.injEq, Prod.mk.injEq] at hrun
    obtain ⟨rfl, rfl⟩ := hrun
    exact ⟨S, .error h rfl fun _ _ Γ θ hs => Store.ne_of_disjoint hs hx hy hm⟩

/-- Two calls in a row, the second one on what the first one left. -/
theorem Unified.andThen {S'' : Store} {g'' : VersionedEGraph}
    {eqs₁ eqs₂ : (InferVarIndex → Ty) → Prop}
    (h : Unified U F v S free eqs₁ (.ok ()) g' S') (h' : Unified U F v S' free' eqs₂ r g'' S'')
    (hstable : eqs₁ S'.resolve → eqs₁ S''.resolve) :
    Unified U F v S (free ∧ free') (fun θ => eqs₁ θ ∧ eqs₂ θ) r g'' S'' where
  represents := h'.represents
  narrows := h.narrows.trans h'.narrows
  equates hr := ⟨hstable (h.equates rfl), h'.equates hr⟩
  errorFree hr hf hx := h'.errorFree hr (h.errorFree rfl hf hx.1) hx.2
  solution_iff hr hf hx Γ θ := by
    rw [h'.solution_iff hr (h.errorFree rfl hf hx.1) hx.2, h.solution_iff rfl hf hx.1, and_assoc]
  not_solution e hr hf hx Γ θ hs hq :=
    h'.not_solution e hr (h.errorFree rfl hf hx.1) hx.2 Γ θ
      ((h.solution_iff rfl hf hx.1 Γ θ).mpr ⟨hs, hq.1⟩) hq.2

/-- A list of pairs, unified one after the other. -/
theorem unified_forEach {f : Ty × Ty → VersionedEGraph → Outcome UnifyError VersionedEGraph Unit}
    (hU : ∀ p g r g', f p g = some (r, g') → g'.placeholderUniverse = g.placeholderUniverse)
    (hf : ∀ p g S r g', Represents g v S → Covers F S p.1 → Covers F S p.2 →
      f p g = some (r, g') → ∃ S', Unified g.placeholderUniverse F v S
        (p.1.ErrorFree ∧ p.2.ErrorFree) (fun θ => p.1.subst θ = p.2.subst θ) r g' S')
    {pairs : List (Ty × Ty)} (h : Represents g v S)
    (hF : ∀ p ∈ pairs, Covers F S p.1 ∧ Covers F S p.2)
    (hrun : forEach f pairs g = some (r, g')) :
    ∃ S', Unified g.placeholderUniverse F v S
      (∀ p ∈ pairs, p.1.ErrorFree ∧ p.2.ErrorFree)
      (fun θ => ∀ p ∈ pairs, p.1.subst θ = p.2.subst θ) r g' S' := by
  induction pairs generalizing g S with
  | nil =>
      simp only [forEach, Option.some.injEq, Prod.mk.injEq] at hrun
      obtain ⟨rfl, rfl⟩ := hrun
      exact ⟨S, .refl h fun _ _ => by simp⟩
  | cons p pairs ih =>
      have hFp := hF p List.mem_cons_self
      simp only [List.forall_mem_cons]
      rw [forEach] at hrun
      rcases hq : f p g with _ | ⟨e | u, g₁⟩
      · rw [hq] at hrun; cases hrun
      · simp only [hq, Loop.andThen, Option.some.injEq, Prod.mk.injEq] at hrun
        obtain ⟨rfl, rfl⟩ := hrun
        obtain ⟨S', h'⟩ := hf p g S _ _ h hFp.1 hFp.2 hq
        refine ⟨S', h'.represents, h'.narrows, by simp, by simp, by simp, ?_⟩
        exact fun e he hS hfree Γ θ hs hall =>
          h'.not_solution e he hS hfree.1 Γ θ hs hall.1
      · rw [hq] at hrun
        obtain ⟨S₁, h₁⟩ := hf p g S _ _ h hFp.1 hFp.2 hq
        have hcover := fun q hqm => hF q (List.mem_cons_of_mem _ hqm)
        obtain ⟨S', h'⟩ := ih h₁.represents (fun q hqm =>
          ⟨h₁.narrows.within _ (hcover q hqm).1, h₁.narrows.within _ (hcover q hqm).2⟩) hrun
        rw [hU p g _ _ hq] at h'
        exact ⟨S', h₁.andThen h' (h'.narrows.equates p.1 p.2)⟩

/-- Two rigid types of one skeleton are equal when their children are, pair by pair. -/
theorem subst_eq_iff_zip {left right : Ty} (hl : left.Rigid) (hr : right.Rigid)
    (hs : (decompose left).skeleton = (decompose right).skeleton) (θ : InferVarIndex → Ty) :
    left.subst θ = right.subst θ ↔
      ∀ p ∈ (decompose left).children.zip (decompose right).children,
        p.1.subst θ = p.2.subst θ := by
  rw [Ty.subst_eq_subst_iff hl hr, and_iff_right hs, ← List.forall₂_eq_eq_eq,
    List.forall₂_map_left_iff, List.forall₂_map_right_iff, List.forall₂_iff_zip]
  have hlen : (decompose left).children.length = (decompose right).children.length := by
    rw [length_children, length_children, hs]
  simp [hlen]

section Recurse

variable {recurse : Ty → Ty → VersionedEGraph → Outcome UnifyError VersionedEGraph Unit}
  (hlocal : ∀ {left right : Ty} {g g' : VersionedEGraph} {r : Except UnifyError Unit},
    recurse left right g = some (r, g') → Local v g g')
  (ih : ∀ (left right : Ty) (g : VersionedEGraph) (S : Store) (r : Except UnifyError Unit)
    (g' : VersionedEGraph), Represents g v S → Covers F S left → Covers F S right →
      recurse left right g = some (r, g') →
      ∃ S', Unified g.placeholderUniverse F v S (left.ErrorFree ∧ right.ErrorFree)
        (fun θ => left.subst θ = right.subst θ) r g' S')
include hlocal ih

theorem unified_unifyRigid {left right : Ty} (h : Represents g v S) (hl : Covers F S left)
    (hr : Covers F S right) (hlr : left.Rigid) (hrr : right.Rigid)
    (hrun : g.unifyRigid recurse v left right = some (r, g')) :
    ∃ S', Unified g.placeholderUniverse F v S (left.ErrorFree ∧ right.ErrorFree)
      (fun θ => left.subst θ = right.subst θ) r g' S' := by
  simp only [unifyRigid] at hrun
  split at hrun
  · rename_i hne
    simp only [Option.some.injEq, Prod.mk.injEq] at hrun
    obtain ⟨rfl, rfl⟩ := hrun
    refine ⟨S, .error h rfl fun _ _ Γ θ _ heq => ?_⟩
    have hs := ((Ty.subst_eq_subst_iff hlr hrr).mp heq).1
    rcases hne with hne | hne
    · exact hne hs
    · exact hne (by rw [length_children, length_children, hs])
  rename_i hne
  rw [not_or, not_not, not_not] at hne
  have h₁ := (h.addDependents left).addDependents right
  have hU : ((g.addDependents v left).addDependents v right).placeholderUniverse =
      g.placeholderUniverse :=
    ((Local.addDependents g v left).trans
      (Local.addDependents _ v right)).toConfined.placeholderUniverse_eq
  have hpairs : ∀ r g'', forEach (fun p : Ty × Ty => recurse p.1 p.2)
      ((decompose left).children.zip (decompose right).children)
      ((g.addDependents v left).addDependents v right) = some (r, g'') →
      ∃ S', Unified g.placeholderUniverse F v S (left.ErrorFree ∧ right.ErrorFree)
        (fun θ => left.subst θ = right.subst θ) r g'' S' := by
    intro r g'' hloop
    have hcover : ∀ p ∈ (decompose left).children.zip (decompose right).children,
        Covers F S p.1 ∧ Covers F S p.2 := fun p hp =>
      ⟨hl.child (List.of_mem_zip hp).1, hr.child (List.of_mem_zip hp).2⟩
    obtain ⟨S', h'⟩ := unified_forEach
      (fun p g r g' hp => (hlocal hp).toConfined.placeholderUniverse_eq)
      (fun p g S r g' => ih p.1 p.2 g S r g') h₁ hcover hloop
    rw [hU] at h'
    refine ⟨S', h'.congr (fun _ hfree p hp => ?_) fun θ _ => (subst_eq_iff_zip hlr hrr hne.1 θ).symm⟩
    obtain ⟨hp₁, hp₂⟩ := List.of_mem_zip hp
    exact ⟨((Ty.all_iff hlr).mp hfree.1).2 _ hp₁, ((Ty.all_iff hrr).mp hfree.2).2 _ hp₂⟩
  cases r with
  | error e =>
      rcases andThen_eq_error.mp hrun with hloop | ⟨_, _, -, hunion⟩
      · exact hpairs _ _ hloop
      · cases hunion
  | ok u =>
      obtain ⟨_, g₂, hloop, hunion⟩ := andThen_eq_ok.mp hrun
      simp only [Option.some.injEq, Prod.mk.injEq, true_and] at hunion
      obtain ⟨S', h'⟩ := hpairs _ _ hloop
      -- the new store equates the two sides, so merging them keeps it
      have hunion' := h'.represents.union_of_eq (Ty.rigid_subst hlr _) (h'.equates rfl)
      exact ⟨S', { h' with represents := hunion ▸ hunion' }⟩

theorem unified_unifyRoots {fuel : Nat} {left right : Ty} (h : Represents g v S)
    (hl : Covers F S left) (hr : Covers F S right)
    (hlroot : ∀ x, left = .inferVar x → S.Unresolved x)
    (hrroot : ∀ x, right = .inferVar x → S.Unresolved x)
    (hrun : g.unifyRoots fuel recurse v left right = some (r, g')) :
    ∃ S', Unified g.placeholderUniverse F v S (left.ErrorFree ∧ right.ErrorFree)
      (fun θ => left.subst θ = right.subst θ) r g' S' := by
  have hroot : ∀ {t : Ty} {x}, S.Unresolved x → t = .inferVar x → t.subst S.resolve = .inferVar x :=
    fun hx ht => ht ▸ (Ty.subst_inferVar _ _).trans hx
  have hmem : ∀ {t : Ty} {x}, Covers F S t → t.subst S.resolve = .inferVar x → x ∈ F :=
    fun ht hx => ht _ (by rw [hx]; simp)
  simp only [unifyRoots] at hrun
  split at hrun
  · rename_i he
    simp only [Option.some.injEq, Prod.mk.injEq] at hrun
    obtain ⟨rfl, rfl⟩ := hrun
    exact ⟨S, .refl h fun θ _ => by rw [he]⟩
  rename_i hne
  split at hrun
  · simp only [Option.some.injEq, Prod.mk.injEq] at hrun
    obtain ⟨rfl, rfl⟩ := hrun
    exact ⟨S, .error h rfl fun _ hfree => absurd rfl (((Ty.all_iff (by trivial)).mp hfree.1).1 _)⟩
  · simp only [Option.some.injEq, Prod.mk.injEq] at hrun
    obtain ⟨rfl, rfl⟩ := hrun
    exact ⟨S, .error h rfl fun _ hfree => absurd rfl (((Ty.all_iff (by trivial)).mp hfree.2).1 _)⟩
  · rename_i x y
    have hx := hlroot x rfl
    have hy := hrroot y rfl
    obtain ⟨S', h'⟩ := unified_unifyVariables h hx hy (fun e => hne (congrArg _ e.symm))
      (hmem hl (hroot hx rfl)) (hmem hr (hroot hy rfl)) hrun
    exact ⟨S', h'.congr (fun _ _ => trivial) fun θ _ => by simp⟩
  · rename_i x _ hrvar
    have hx := hlroot x rfl
    have hrr : right.Rigid := right.rigid_or_var.resolve_right (not_exists.mpr hrvar)
    rcases compatibleDomain_var_rigid h (hroot hx rfl) (Ty.rigid_subst hrr _) with
      ⟨hd, hrun'⟩ | ⟨hd, e, hrun'⟩ <;> rw [hrun'] at hrun
    · obtain ⟨S', h'⟩ := unified_bindVariable h hx (hmem hl (hroot hx rfl)) hr
        (Ty.rigid_subst hrr _) hd hrun
      exact ⟨S', h'.congr (fun _ => And.right) fun θ _ => by simp⟩
    · simp only [Option.some.injEq, Prod.mk.injEq] at hrun
      obtain ⟨rfl, rfl⟩ := hrun
      exact ⟨S, .error h rfl fun _ _ Γ θ hs he =>
        Store.ne_of_not_admits hs hx (Ty.rigid_subst hrr _) hd (by simpa using he)⟩
  · rename_i x _ hlvar
    have hx := hrroot x rfl
    have hlr : left.Rigid := left.rigid_or_var.resolve_right (not_exists.mpr hlvar)
    rcases compatibleDomain_rigid_var h (Ty.rigid_subst hlr _) (hroot hx rfl) with
      ⟨hd, hrun'⟩ | ⟨hd, e, hrun'⟩ <;> rw [hrun'] at hrun
    · obtain ⟨S', h'⟩ := unified_bindVariable h hx (hmem hr (hroot hx rfl)) hl
        (Ty.rigid_subst hlr _) hd hrun
      exact ⟨S', h'.congr (fun _ => And.left) fun θ _ => by simp [eq_comm]⟩
    · simp only [Option.some.injEq, Prod.mk.injEq] at hrun
      obtain ⟨rfl, rfl⟩ := hrun
      exact ⟨S, .error h rfl fun _ _ Γ θ hs he =>
        Store.ne_of_not_admits hs hx (Ty.rigid_subst hlr _) hd (by simpa using he.symm)⟩
  · rename_i hlvar _ hrvar _
    have hlr : left.Rigid := left.rigid_or_var.resolve_right (not_exists.mpr hlvar)
    have hrr : right.Rigid := right.rigid_or_var.resolve_right (not_exists.mpr hrvar)
    exact unified_unifyRigid hlocal ih h hl hr hlr hrr hrun

end Recurse

/-- One call of unification adds its equation to the store, or the store has no solution that
meets it. -/
theorem unifyInProbe_spec (fuel : Nat) : ∀ (left right : Ty) (g : VersionedEGraph) (S : Store)
    (r : Except UnifyError Unit) (g' : VersionedEGraph), Represents g v S →
    Covers F S left → Covers F S right → unifyInProbe fuel v left right g = some (r, g') →
    ∃ S', Unified g.placeholderUniverse F v S (left.ErrorFree ∧ right.ErrorFree)
      (fun θ => left.subst θ = right.subst θ) r g' S' := by
  induction fuel with
  | zero => intro left right g S r g' _ _ _ hrun; cases hrun
  | succ fuel ih =>
      intro left right g S r g' h hl hr hrun
      have h₁ := h.findMut left
      have h₂ := h₁.findMut right
      have hlocal : Local v g ((g.findMut v left).2.findMut v right).2 :=
        (Local.findMut g v left).trans (Local.findMut _ v right)
      have hroot : ∀ {g : VersionedEGraph} {t : Ty}, Represents g v S → ∀ x,
          g.find v t = .inferVar x → S.Unresolved x := fun h x hx =>
        Store.unresolved_of_eq (h.find_eq_inferVar.mp hx)
      rw [VersionedEGraph.unifyInProbe] at hrun
      obtain ⟨S', h'⟩ := unified_unifyRoots (fun hrun => Local.unifyInProbe fuel hrun) ih h₂
        (hl.find h) (hr.find h₁) (hroot h) (hroot h₁) hrun
      rw [hlocal.placeholderUniverse_eq] at h'
      have hsubst : ∀ {g : VersionedEGraph}, Represents g v S → ∀ θ,
          (∀ x, (S.resolve x).subst θ = θ x) → ∀ t, (g.find v t).subst θ = t.subst θ := by
        intro g h θ hθ t
        have habsorb : ∀ u : Ty, (u.subst S.resolve).subst θ = u.subst θ := fun u => by
          rw [Ty.subst_subst]
          exact Ty.subst_congr fun y _ => hθ y
        rw [← habsorb, h.subst_find, habsorb]
      refine ⟨S', h'.congr (fun hf hfree => ⟨h.errorFree_find hf hfree.1,
        h₁.errorFree_find hf hfree.2⟩) fun θ hθ => ?_⟩
      rw [hsubst h θ hθ, hsubst h₁ θ hθ]

end Unify

end VersionedEGraph

end Sage
