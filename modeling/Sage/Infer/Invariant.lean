import Sage.Infer.TryUnify

/-!
# Inference — invariants of unification

What a version resolves its variables to changes in two places only: a variable is bound to a
rigid type, or linked to another variable.  Everything else unification writes keeps the
resolution, the domains and the ceilings.

* `UnifyInvariant` — a property of a version and its store that survives both.
* `UnifyInvariant.unifyInProbe` — then it survives unification, whether it succeeds or not.
* `UnifyInvariant.setBound` — and the recording of an exact bound.
-/

namespace Sage

open Loop

/-- Substitution keeps the head of a rigid type. -/
theorem Ty.subst_ne_error {t : Ty} (hr : t.Rigid) (hne : ∀ e, t ≠ .error e)
    (θ : InferVarIndex → Ty) : ∀ e, t.subst θ ≠ .error e := fun e he => by
  cases t <;> first | exact hr.elim | exact hne _ rfl | cases he

theorem Ty.notMem_vars_error {e : ErrorReported} {x : InferVarIndex} : x ∉ (Ty.error e).vars := by
  intro hm
  obtain ⟨c, hc, -⟩ := (Ty.mem_vars_iff (t := .error e) trivial).mp hm
  exact absurd hc List.not_mem_nil

/-! ### Allocated variables -/

namespace Store

variable {S : Store} {x : InferVarIndex} {t : Ty} {n m : Nat}

/-- Only the first `n` variables have been touched. -/
structure Allocated (S : Store) (n : Nat) : Prop where
  unresolved : ∀ x, n ≤ x → S.Unresolved x
  within : ∀ x, x < n → ∀ y ∈ (S.resolve x).vars, y < n

theorem Allocated.mono (h : S.Allocated n) (hn : n ≤ m) : S.Allocated m where
  unresolved x hx := h.unresolved x (Nat.le_trans hn hx)
  within x hx y hy := by
    by_cases hxn : x < n
    · exact Nat.lt_of_lt_of_le (h.within x hxn y hy) hn
    · rw [show S.resolve x = .inferVar x from h.unresolved x (Nat.le_of_not_lt hxn),
        Ty.mem_vars_inferVar] at hy
      exact hy ▸ hx

theorem Allocated.congr {S' : Store} (h : S.Allocated n) (hr : S'.resolve = S.resolve) :
    S'.Allocated n :=
  ⟨fun x hx => by rw [Store.Unresolved, hr]; exact h.unresolved x hx,
    fun x hx => by rw [hr]; exact h.within x hx⟩

theorem Allocated.subst (h : S.Allocated n) (ht : ∀ y ∈ t.vars, y < n) :
    ∀ y ∈ (t.subst S.resolve).vars, y < n := by
  intro y hy
  obtain ⟨z, hz, hy⟩ := Ty.mem_vars_subst.mp hy
  exact h.within z (ht z hz) y hy

theorem Allocated.extend (h : S.Allocated n) {restrictions : Restrictions}
    (hocc : x ∉ (t.subst S.resolve).vars) (hx : x < n)
    (ht : ∀ y ∈ (t.subst S.resolve).vars, y < n) :
    (S.extend restrictions hocc).Allocated n where
  unresolved y hy :=
    unresolved_extend hocc (h.unresolved y hy) fun e => Nat.not_lt.mpr hy (e ▸ hx)
  within y hy z hz := by
    obtain ⟨w, hw, hz⟩ := Ty.mem_vars_subst.mp hz
    by_cases hwx : w = x
    · subst hwx
      rw [single_self] at hz
      exact ht z hz
    · rw [single_of_ne hwx, Ty.mem_vars_inferVar] at hz
      exact hz ▸ h.within y hy w hw

end Store

namespace VersionedEGraph

variable {g g' g'' : VersionedEGraph} {v : Version} {S : Store} {r : Except UnifyError Unit}

/-- How many variables there are. -/
def varCount (g : VersionedEGraph) : Nat := g.versions.varInfos.length

theorem Confined.varCount_le (h : Confined v g g') : g.varCount ≤ g'.varCount := by
  obtain ⟨infos, hinfos, -⟩ := h.varInfos
  rw [varCount, varCount, hinfos, List.length_append]
  exact Nat.le_add_right _ _

/-- The variables there are, as the set unification works on. -/
def vars (g : VersionedEGraph) : Finset InferVarIndex := Finset.range g.varCount

theorem Covers.mono {t : Ty} (h : Covers (vars g) S t) (hn : g.varCount ≤ g'.varCount) :
    Covers (vars g') S t :=
  fun y hy => Finset.mem_range.mpr (Nat.lt_of_lt_of_le (Finset.mem_range.mp (h y hy)) hn)

/-- Every variable of the type exists. -/
def Allocates (g : VersionedEGraph) (t : Ty) : Prop := ∀ y ∈ t.vars, y < g.varCount

theorem Allocates.mono {t : Ty} (h : g.Allocates t) (hn : g.varCount ≤ g'.varCount) :
    g'.Allocates t := fun y hy => Nat.lt_of_lt_of_le (h y hy) hn

theorem Allocates.covers {t : Ty} (h : g.Allocates t) (hS : S.Allocated g.varCount) :
    Covers (vars g) S t :=
  fun y hy => Finset.mem_range.mpr (hS.subst h y hy)

/-! ### Writes that keep what a version records about its variables -/

/-- The domains and the ceilings are the same. -/
structure KeepsRestrictions (v : Version) (g g' : VersionedEGraph) : Prop
    extends Local v g g' where
  versions : g'.versions = g.versions
  domain : (g'.view v).domain = (g.view v).domain
  ceiling : (g'.view v).ceiling = (g.view v).ceiling

namespace KeepsRestrictions

theorem refl (v : Version) (g : VersionedEGraph) : KeepsRestrictions v g g :=
  ⟨Local.refl v g, rfl, rfl, rfl⟩

theorem trans (h : KeepsRestrictions v g g') (h' : KeepsRestrictions v g' g'') :
    KeepsRestrictions v g g'' :=
  ⟨h.toLocal.trans h'.toLocal, h'.versions.trans h.versions, h'.domain.trans h.domain,
    h'.ceiling.trans h.ceiling⟩

theorem of_sameRecords (hl : Local v g g') (hs : SameRecords v g g') :
    KeepsRestrictions v g g' := ⟨hl, hs.versions, hs.domain, hs.ceiling⟩

theorem restrictions_eq (h : KeepsRestrictions v g g') : g'.restrictions v = g.restrictions v :=
  restrictions_congr h.versions h.domain h.ceiling

theorem currentUniverse_eq (h : KeepsRestrictions v g g') :
    g'.currentUniverse v = g.currentUniverse v :=
  congrArg Restrictions.ceiling h.restrictions_eq

theorem varCount_eq (h : KeepsRestrictions v g g') : g'.varCount = g.varCount := by
  rw [varCount, varCount, h.versions]

theorem findMut (hg : g.WF) (hv : v < g.states.length) (t : Ty) :
    KeepsRestrictions v g (g.findMut v t).2 :=
  of_sameRecords (Local.findMut g v t) (SameRecords.compressPathFrom hg hv)

theorem addDependents (hg : g.WF) (hv : v < g.states.length) (t : Ty) :
    KeepsRestrictions v g (g.addDependents v t) := by
  rw [VersionedEGraph.addDependents]
  generalize (decompose t).children = children
  induction children generalizing g with
  | nil => exact refl v g
  | cons child children ih =>
      have hl : Local v g (g.addDependent v child t) := Local.modifyState g v _ rfl
      have hview := view_addDependent hg hv child t
      have hadd : KeepsRestrictions v g (g.addDependent v child t) :=
        ⟨hl, rfl, by rw [hview], by rw [hview]⟩
      exact hadd.trans (ih (hl.wf hg) (hl.length ▸ hv))

theorem union (hg : g.WF) (hv : v < g.states.length) (left right : Ty) :
    KeepsRestrictions v g (g.union v left right).2 := by
  by_cases hne : g.find v left = g.find v right
  · rw [VersionedEGraph.union_of_eq hne]
    exact refl v g
  · have hview := view_union hg hv hne
    exact ⟨Local.union g v left right, union_versions g v left right, by rw [hview],
      by rw [hview]⟩

theorem setBoundIn (hg : g.WF) (hv : v < g.states.length) (x : InferVarIndex) (b : Bound) :
    KeepsRestrictions v g (g.setBoundIn v (.inferVar x) b) := by
  obtain ⟨wakes, revision, hview⟩ := Represents.setBoundIn_view hg hv (x := x) b
  exact ⟨Local.setBoundIn g v (.inferVar x) b, Represents.setBoundIn_versions b, by rw [hview],
    by rw [hview]⟩

end KeepsRestrictions

/-! ### What unification keeps -/

/-- A property of what `v` resolves and restricts its variables to, kept when a variable is bound
to an admitted type or linked to another. -/
structure UnifyInvariant (v : Version) (P : VersionedEGraph → Store → Prop) : Prop where
  represents : ∀ {g S}, P g S → Represents g v S
  allocated : ∀ {g S}, P g S → S.Allocated g.varCount
  congr : ∀ {g g' S S'}, P g S → Represents g' v S' → S'.resolve = S.resolve →
    KeepsRestrictions v g g' → P g' S'
  bind : ∀ {g g' S r x t fuel}, P g S → S.Unresolved x → x < g.varCount →
    Covers (vars g) S t → (t.subst S.resolve).Rigid →
    (S.restrictions.domain x).admits (t.subst S.resolve) = true →
    (∀ e, t.subst S.resolve ≠ .error e) →
    g.bindVariable fuel v (.inferVar x) x t = some (r, g') → ∃ S', P g' S'
  link : ∀ {g g' S r x y}, P g S → S.Unresolved x → S.Unresolved y → y ≠ x → x < g.varCount →
    y < g.varCount → g.unifyVariables v (.inferVar x) (.inferVar y) x y = some (r, g') →
    ∃ S', P g' S'

namespace UnifyInvariant

variable {P : VersionedEGraph → Store → Prop} {x : InferVarIndex} {t : Ty} {fuel : Nat}
  (hP : UnifyInvariant v P)
include hP

/-- A version has one resolution, so it does not matter for which store the property holds. -/
theorem of_represents {S' : Store} (h : P g S) (h' : Represents g v S') : P g S' :=
  hP.congr h h' (h'.resolution.unique (hP.represents h).resolution) (.refl v g)

theorem keeps (h : P g S) (hrep : Represents g' v S) (hk : KeepsRestrictions v g g') : P g' S :=
  hP.congr h hrep rfl hk

theorem findMut (h : P g S) (t : Ty) : P (g.findMut v t).2 S :=
  have hrep := hP.represents h
  hP.keeps h (hrep.findMut t) (.findMut hrep.wf hrep.lt t)

theorem rebuild [HashOrder] {changed : List Ty} (h : P g S)
    (hrun : g.rebuild fuel v = some (changed, g')) : P g' S :=
  have hrep := hP.represents h
  hP.keeps h (hrep.rebuild hrun)
    (.of_sameRecords (Local.rebuild _ hrun) (SameRecords.rebuildFrom hrep hrun))

theorem addDependents (h : P g S) (t : Ty) : P (g.addDependents v t) S :=
  have hrep := hP.represents h
  hP.keeps h (hrep.addDependents t) (.addDependents hrep.wf hrep.lt t)

/-- What one call mentions, the next one may. -/
theorem covers {left right u : Ty} {S' : Store} (h : P g S) (hl : Covers (vars g) S left)
    (hr : Covers (vars g) S right)
    (hrun : VersionedEGraph.unifyInProbe fuel v left right g = some (r, g'))
    (h' : Represents g' v S') (hu : Covers (vars g) S u) : Covers (vars g') S' u := by
  obtain ⟨S₁, h₁⟩ := unifyInProbe_spec fuel left right g S r g' (hP.represents h) hl hr hrun
  intro y hy
  rw [h'.resolution.unique h₁.represents.resolution] at hy
  refine Finset.mem_range.mpr (Nat.lt_of_lt_of_le (Finset.mem_range.mp ?_)
    (Local.unifyInProbe fuel hrun).varCount_le)
  exact h₁.narrows.within u hu y hy

/-- A list of pairs, unified one after the other. -/
theorem pairs_of {pairs : List (Ty × Ty)}
    (hf : ∀ p ∈ pairs, ∀ {g S r g'}, P g S → Covers (vars g) S p.1 → Covers (vars g) S p.2 →
      VersionedEGraph.unifyInProbe fuel v p.1 p.2 g = some (r, g') → ∃ S', P g' S')
    (h : P g S) (hF : ∀ p ∈ pairs, Covers (vars g) S p.1 ∧ Covers (vars g) S p.2)
    (hrun : Loop.forEach (fun p : Ty × Ty => VersionedEGraph.unifyInProbe fuel v p.1 p.2) pairs g =
      some (r, g')) : ∃ S', P g' S' := by
  induction pairs generalizing g S with
  | nil =>
      simp only [Loop.forEach, Option.some.injEq, Prod.mk.injEq] at hrun
      exact ⟨S, hrun.2 ▸ h⟩
  | cons p pairs ih =>
      have hFp := hF p List.mem_cons_self
      have hp := @hf p List.mem_cons_self
      rw [Loop.forEach] at hrun
      rcases hq : VersionedEGraph.unifyInProbe fuel v p.1 p.2 g with _ | ⟨e | u, g₁⟩
      · rw [hq] at hrun
        cases hrun
      · simp only [hq, Loop.andThen, Option.some.injEq, Prod.mk.injEq] at hrun
        exact hrun.2 ▸ hp h hFp.1 hFp.2 hq
      · rw [hq] at hrun
        obtain ⟨S₁, h₁⟩ := hp h hFp.1 hFp.2 hq
        have hcovers := fun t => hP.covers (u := t) h hFp.1 hFp.2 hq (hP.represents h₁)
        refine ih (fun q hqm => hf q (List.mem_cons_of_mem _ hqm)) h₁ (fun q hqm => ?_) hrun
        have hFq := hF q (List.mem_cons_of_mem _ hqm)
        exact ⟨hcovers _ hFq.1, hcovers _ hFq.2⟩

section Recurse

variable (ih : ∀ (left right : Ty) {g : VersionedEGraph} {S : Store}
    {r : Except UnifyError Unit} {g' : VersionedEGraph}, P g S → Covers (vars g) S left →
      Covers (vars g) S right →
      VersionedEGraph.unifyInProbe fuel v left right g = some (r, g') → ∃ S', P g' S')
include ih

theorem unifyRigid {left right : Ty} (h : P g S) (hl : Covers (vars g) S left)
    (hr : Covers (vars g) S right) (hlr : left.Rigid) (hrr : right.Rigid)
    (hrun : g.unifyRigid (VersionedEGraph.unifyInProbe fuel v) v left right = some (r, g')) :
    ∃ S', P g' S' := by
  simp only [VersionedEGraph.unifyRigid] at hrun
  split at hrun
  · simp only [Option.some.injEq, Prod.mk.injEq] at hrun
    exact ⟨S, hrun.2 ▸ h⟩
  rename_i hne
  rw [not_or, not_not, not_not] at hne
  have h₁ := hP.addDependents (hP.addDependents h left) right
  have hlocal := (Local.addDependents g v left).trans (Local.addDependents _ v right)
  generalize (g.addDependents v left).addDependents v right = g₁ at h₁ hlocal hrun
  have hcover : ∀ p ∈ (decompose left).children.zip (decompose right).children,
      Covers (vars g₁) S p.1 ∧ Covers (vars g₁) S p.2 := fun p hp =>
    ⟨(hl.mono hlocal.varCount_le).child (List.of_mem_zip hp).1,
      (hr.mono hlocal.varCount_le).child (List.of_mem_zip hp).2⟩
  cases r with
  | error e =>
      rcases andThen_eq_error.mp hrun with hpairs | ⟨_, _, -, hunion⟩
      · exact hP.pairs_of (fun p _ _ _ _ _ => ih p.1 p.2) h₁ hcover hpairs
      · cases hunion
  | ok u =>
      obtain ⟨_, g₂, hpairs, hunion⟩ := andThen_eq_ok.mp hrun
      simp only [Option.some.injEq, Prod.mk.injEq, true_and] at hunion
      obtain ⟨S', h'⟩ := unified_forEach
        (fun p g r g' hp => (Local.unifyInProbe fuel hp).placeholderUniverse_eq)
        (fun p g S r g' => unifyInProbe_spec fuel p.1 p.2 g S r g') (hP.represents h₁) hcover hpairs
      obtain ⟨S₂, h₂⟩ := hP.pairs_of (fun p _ _ _ _ _ => ih p.1 p.2) h₁ hcover hpairs
      have h₂ := hP.of_represents h₂ h'.represents
      have heq := (subst_eq_iff_zip hlr hrr hne.1 _).mpr (h'.equates rfl)
      have hrep := h'.represents.union_of_eq (Ty.rigid_subst hlr _) heq
      have hkeep := KeepsRestrictions.union h'.represents.wf h'.represents.lt left right
      rw [hunion] at hrep hkeep
      exact ⟨S', hP.keeps h₂ hrep hkeep⟩

theorem unifyRoots {left right : Ty} (h : P g S) (hl : Covers (vars g) S left)
    (hr : Covers (vars g) S right) (hlroot : ∀ x, left = .inferVar x → S.Unresolved x)
    (hrroot : ∀ x, right = .inferVar x → S.Unresolved x)
    (hrun : g.unifyRoots fuel (VersionedEGraph.unifyInProbe fuel v) v left right = some (r, g')) :
    ∃ S', P g' S' := by
  have hvar : ∀ {x}, S.Unresolved x → (Ty.inferVar x).subst S.resolve = .inferVar x :=
    fun hx => (Ty.subst_inferVar _ _).trans hx
  have hlt : ∀ {t : Ty} {x}, Covers (vars g) S t → S.Unresolved x → t = .inferVar x →
      x < g.varCount := by
    rintro t x ht hx rfl
    refine Finset.mem_range.mp (ht x ?_)
    rw [hvar hx]
    exact Ty.mem_vars_inferVar.mpr rfl
  simp only [VersionedEGraph.unifyRoots] at hrun
  split at hrun
  · simp only [Option.some.injEq, Prod.mk.injEq] at hrun
    exact ⟨S, hrun.2 ▸ h⟩
  rename_i hne
  split at hrun
  · simp only [Option.some.injEq, Prod.mk.injEq] at hrun
    exact ⟨S, hrun.2 ▸ h⟩
  · simp only [Option.some.injEq, Prod.mk.injEq] at hrun
    exact ⟨S, hrun.2 ▸ h⟩
  · rename_i x y
    have hx := hlroot x rfl
    have hy := hrroot y rfl
    exact hP.link h hx hy (fun e => hne (congrArg _ e.symm)) (hlt hl hx rfl) (hlt hr hy rfl) hrun
  · rename_i x hrerr hrvar
    have hx := hlroot x rfl
    have hrr : right.Rigid := right.rigid_or_var.resolve_right (not_exists.mpr hrvar)
    -- the domain check comes before the bind
    rcases compatibleDomain_var_rigid (hP.represents h) (hvar hx) (Ty.rigid_subst hrr _)
      with ⟨hd, hok⟩ | ⟨-, e, herr⟩
    · rw [hok] at hrun
      exact hP.bind h hx (hlt hl hx rfl) hr (Ty.rigid_subst hrr _) hd (Ty.subst_ne_error hrr hrerr _) hrun
    · simp only [herr, Option.some.injEq, Prod.mk.injEq] at hrun
      exact ⟨S, hrun.2 ▸ h⟩
  · rename_i x hlerr hlvar
    have hx := hrroot x rfl
    have hlr : left.Rigid := left.rigid_or_var.resolve_right (not_exists.mpr hlvar)
    rcases compatibleDomain_rigid_var (hP.represents h) (Ty.rigid_subst hlr _) (hvar hx)
      with ⟨hd, hok⟩ | ⟨-, e, herr⟩
    · rw [hok] at hrun
      exact hP.bind h hx (hlt hr hx rfl) hl (Ty.rigid_subst hlr _) hd (Ty.subst_ne_error hlr hlerr _) hrun
    · simp only [herr, Option.some.injEq, Prod.mk.injEq] at hrun
      exact ⟨S, hrun.2 ▸ h⟩
  · rename_i hlvar _ hrvar _
    have hlr : left.Rigid := left.rigid_or_var.resolve_right (not_exists.mpr hlvar)
    have hrr : right.Rigid := right.rigid_or_var.resolve_right (not_exists.mpr hrvar)
    exact hP.unifyRigid ih h hl hr hlr hrr hrun

end Recurse

/-- Unification keeps the property, whether it succeeds or not. -/
theorem unifyInProbe (fuel : Nat) (left right : Ty) {g g' : VersionedEGraph} {S : Store}
    {r : Except UnifyError Unit} (h : P g S) (hl : Covers (vars g) S left)
    (hr : Covers (vars g) S right)
    (hrun : VersionedEGraph.unifyInProbe fuel v left right g = some (r, g')) : ∃ S', P g' S' := by
  induction fuel generalizing left right g g' S r with
  | zero => cases hrun
  | succ fuel ih =>
      have h₁ := hP.findMut h left
      have h₂ := hP.findMut h₁ right
      have hlocal : Local v g ((g.findMut v left).2.findMut v right).2 :=
        (Local.findMut g v left).trans (Local.findMut _ v right)
      have hroot : ∀ {g : VersionedEGraph} {t : Ty}, Represents g v S → ∀ x,
          g.find v t = .inferVar x → S.Unresolved x := fun h x hx =>
        Store.unresolved_of_eq (h.find_eq_inferVar.mp hx)
      rw [VersionedEGraph.unifyInProbe] at hrun
      refine hP.unifyRoots (fun left right => ih left right) h₂ ?_ ?_ (hroot (hP.represents h))
        (hroot (hP.represents h₁)) hrun
      · exact (hl.find (hP.represents h)).mono hlocal.varCount_le
      · exact (hr.find (hP.represents h₁)).mono hlocal.varCount_le

theorem unifyPairs {pairs : List (Ty × Ty)} (h : P g S)
    (hF : ∀ p ∈ pairs, Covers (vars g) S p.1 ∧ Covers (vars g) S p.2)
    (hrun : Loop.forEach (fun p : Ty × Ty => VersionedEGraph.unifyInProbe fuel v p.1 p.2) pairs g =
      some (r, g')) : ∃ S', P g' S' :=
  hP.pairs_of (fun p _ _ _ _ _ h hl hr hrun => hP.unifyInProbe fuel p.1 p.2 h hl hr hrun) h hF hrun

/-! ### Bounds -/

theorem setBoundIn {b : Bound} (h : P g S)
    (hb : ∀ t, b.ty = some t → t.subst S.resolve = S.resolve x) :
    P (g.setBoundIn v (.inferVar x) b) S :=
  have hrep := hP.represents h
  hP.keeps h (hrep.setBoundIn hb) (.setBoundIn hrep.wf hrep.lt x b)

/-- An exact bound, as `trySetBound` records it. -/
theorem setBound {bound : Bound} (h : P g S) (hb : bound.IsExact)
    (hx : Covers (vars g) S (.inferVar x)) (ht : ∀ t, bound.ty = some t → Covers (vars g) S t)
    (hrun : andThen
      (match bound with
        | .none => some (.ok (), g)
        | .atLeast boundTy =>
            match makeAccessible v x (g.currentUniverse v x) fuel boundTy ([], g) with
            | none => none
            | some (r, (_, g)) => some (r, g)
        | .exactly boundTy => VersionedEGraph.unifyInProbe fuel v (.inferVar x) boundTy g)
      (fun _ g => some (.ok (), g.setBoundIn v (.inferVar x) bound)) = some (r, g')) :
    ∃ S', P g' S' := by
  cases bound with
  | none =>
      simp only [andThen, Option.some.injEq, Prod.mk.injEq] at hrun
      exact ⟨S, hrun.2 ▸ hP.setBoundIn h fun t ht => by cases ht⟩
  | atLeast t => exact hb.elim
  | exactly t =>
      have ht := ht t rfl
      cases r with
      | error e =>
          rcases andThen_eq_error.mp hrun with hu | ⟨_, _, -, hset⟩
          · exact hP.unifyInProbe fuel _ t h hx ht hu
          · cases hset
      | ok u =>
          obtain ⟨_, g₁, hu, hset⟩ := andThen_eq_ok.mp hrun
          simp only [Option.some.injEq, Prod.mk.injEq, true_and] at hset
          obtain ⟨S₁, h₁⟩ := hP.unifyInProbe fuel _ t h hx ht hu
          obtain ⟨S', h'⟩ := unifyInProbe_spec fuel _ t g S _ g₁ (hP.represents h) hx ht hu
          refine ⟨S', hset ▸ hP.setBoundIn (hP.of_represents h₁ h'.represents) fun u hu => ?_⟩
          obtain rfl := Option.some.inj hu
          have he := h'.equates rfl
          rw [Ty.subst_inferVar] at he
          exact he.symm

end UnifyInvariant

end VersionedEGraph

end Sage
