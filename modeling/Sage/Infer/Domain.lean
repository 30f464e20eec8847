import Sage.Infer.InvariantRun

/-!
# Inference — the domains of a class

The effective domain of an unresolved class is kept with its representative.  It is the
intersection of the domains the members of the class were created with, and a class that is
resolved is resolved to a type of each of them.  Two classes are linked under the intersection of
their domains and a class is bound to a type its domain admits; nothing else writes a domain or
resolves a variable.

* `Meets` — the invariant, on the resolution and the domains.
* `InDomain.versionInvariant` — the steps of a run keep it.
-/

namespace Sage

/-! ### Intersections of domains -/

namespace InferDomain

variable {d d' e m : InferDomain} {t : Ty}

/-- The intersection of a list of domains. -/
def intersectAll : List InferDomain → Option InferDomain
  | [] => some .any
  | d :: ds => (intersectAll ds).bind d.intersect

@[simp] theorem any_intersect (d : InferDomain) : any.intersect d = some d := by cases d <;> rfl

@[simp] theorem intersect_any (d : InferDomain) : d.intersect .any = some d := by cases d <;> rfl

/-- The intersection is one of the two domains. -/
theorem eq_of_intersect (h : d.intersect d' = some m) : m = d ∨ m = d' := by
  revert h
  cases d <;> cases d' <;> simp [intersect] <;> rintro rfl <;> simp

theorem intersect_left (h : d.intersect d' = some m) : d.intersect m = some m := by
  revert h
  cases d <;> cases d' <;> simp [intersect] <;> rintro rfl <;> rfl

theorem intersect_right (h : d.intersect d' = some m) : d'.intersect m = some m := by
  revert h
  cases d <;> cases d' <;> simp [intersect] <;> rintro rfl <;> rfl

theorem intersect_trans (h : d.intersect d' = some d') (h' : d'.intersect m = some m) :
    d.intersect m = some m := by
  revert h h'
  cases d <;> cases d' <;> cases m <;> simp [intersect]

/-- A domain below two others is below their intersection. -/
theorem exists_intersect (h : d.intersect m = some m) (h' : d'.intersect m = some m) :
    ∃ e, d.intersect d' = some e ∧ e.intersect m = some m := by
  revert h h'
  cases d <;> cases d' <;> cases m <;> simp [intersect]

theorem admits_of_intersect (h : d.intersect d' = some d') (ht : d'.admits t = true) :
    d.admits t = true := by
  revert h ht
  cases d <;> cases d' <;> simp [intersect, admits]

/-- Two domains that admit one type, other than the error type, meet. -/
theorem exists_intersect_of_admits (hr : t.Rigid) (hne : ∀ e, t ≠ .error e)
    (h : d.admits t = true) (h' : d'.admits t = true) : ∃ m, d.intersect d' = some m := by
  cases d <;> cases d' <;> simp only [intersect, Option.some.injEq, exists_eq']
  all_goals
    cases t <;> first | exact absurd rfl (hne _) | simp_all [admits]

theorem admits_error (d : InferDomain) (e : ErrorReported) : d.admits (.error e) = true := by
  cases d <;> rfl

theorem intersect_antisymm (h : d.intersect d' = some d') (h' : d'.intersect d = some d) :
    d = d' := by
  revert h h'
  cases d <;> cases d' <;> simp [intersect]

/-- The intersection of a list is below each of them. -/
theorem intersect_of_mem {ds : List InferDomain} (h : intersectAll ds = some m) (hd : d ∈ ds) :
    d.intersect m = some m := by
  induction ds generalizing m with
  | nil => exact absurd hd List.not_mem_nil
  | cons d' ds ih =>
      obtain ⟨e, he, hm⟩ := Option.bind_eq_some_iff.mp h
      rcases List.mem_cons.mp hd with rfl | hd
      · exact intersect_left hm
      · exact intersect_trans (ih he hd) (intersect_right hm)

/-- What is below every domain of a list is below their intersection. -/
theorem exists_intersectAll {ds : List InferDomain} (h : ∀ d ∈ ds, d.intersect m = some m) :
    ∃ e, intersectAll ds = some e ∧ e.intersect m = some m := by
  induction ds with
  | nil => exact ⟨.any, rfl, any_intersect m⟩
  | cons d ds ih =>
      obtain ⟨e, he, hem⟩ := ih fun a ha => h a (List.mem_cons_of_mem _ ha)
      obtain ⟨e', he', hem'⟩ := exists_intersect (h d List.mem_cons_self) hem
      exact ⟨e', Option.bind_eq_some_iff.mpr ⟨e, he, he'⟩, hem'⟩

/-- A lower bound that is attained is the intersection. -/
theorem intersectAll_eq {ds : List InferDomain} (h : ∀ d ∈ ds, d.intersect m = some m)
    (hm : m = .any ∨ m ∈ ds) : intersectAll ds = some m := by
  obtain ⟨e, he, hem⟩ := exists_intersectAll h
  have hme : m.intersect e = some e := by
    rcases hm with rfl | hm
    · exact any_intersect e
    · exact intersect_of_mem he hm
  rw [he, intersect_antisymm hem hme]

end InferDomain

/-! ### The invariant -/

/-- The domains `D` of the unresolved variables are the intersections of the domains `δ` of the
variables resolved to them, and whatever else a variable is resolved to is a type of its
domain. -/
structure Meets (ρ : InferVarIndex → Ty) (δ D : InferVarIndex → InferDomain) (n : Nat) :
    Prop where
  admits : ∀ x < n, (ρ x).Rigid → (δ x).admits (ρ x) = true
  within : ∀ x < n, ∀ y, ρ x = .inferVar y → (δ x).intersect (D y) = some (D y)
  attained : ∀ y < n, ρ y = .inferVar y → D y = .any ∨ ∃ x < n, ρ x = .inferVar y ∧ δ x = D y

namespace Meets

open Store

variable {S : Store} {δ δ' D D' : InferVarIndex → InferDomain} {x y : InferVarIndex} {t : Ty}
  {n m : Nat} {Γ : Restrictions}

/-- More variables, each a class of its own. -/
theorem mono (h : Meets S.resolve δ D n) (ha : S.Allocated n) (hn : n ≤ m)
    (hδ : ∀ x < n, δ' x = δ x) (hD : ∀ x < n, D' x = D x) (hnew : ∀ x, n ≤ x → D' x = δ' x) :
    Meets S.resolve δ' D' m where
  admits x hx hr := by
    by_cases hxn : x < n
    · rw [hδ x hxn]
      exact h.admits x hxn hr
    · rw [show S.resolve x = .inferVar x from ha.unresolved x (Nat.le_of_not_lt hxn)] at hr
      exact hr.elim
  within x hx y hy := by
    by_cases hxn : x < n
    · have hyn : y < n := ha.within x hxn y (by rw [hy, Ty.mem_vars_inferVar])
      rw [hδ x hxn, hD y hyn]
      exact h.within x hxn y hy
    · have hxu := ha.unresolved x (Nat.le_of_not_lt hxn)
      obtain rfl : x = y := Ty.inferVar.inj (hxu.symm.trans hy)
      rw [hnew x (Nat.le_of_not_lt hxn)]
      exact InferDomain.intersect_self _
  attained y hy hu := by
    by_cases hyn : y < n
    · rw [hD y hyn]
      refine (h.attained y hyn hu).imp_right ?_
      rintro ⟨x, hx, hxy, hd⟩
      exact ⟨x, Nat.lt_of_lt_of_le hx hn, hxy, (hδ x hx).trans hd⟩
    · exact .inr ⟨y, hy, hu, (hnew y (Nat.le_of_not_lt hyn)).symm⟩

section Extend

variable (hocc : x ∉ (t.subst S.resolve).vars) (hx : S.Unresolved x)
include hx

/-- A class bound to a type its domain admits. -/
theorem bind (h : Meets S.resolve δ D n) (hr : (t.subst S.resolve).Rigid)
    (hadmits : (D x).admits (t.subst S.resolve) = true) :
    Meets (S.extend Γ hocc).resolve δ D n := by
  have hres : ∀ y, (S.extend Γ hocc).resolve y = (S.resolve y).subst (single x (t.subst S.resolve)) :=
    fun _ => rfl
  have hvar : ∀ {y z}, (S.extend Γ hocc).resolve y = .inferVar z →
      S.resolve y = .inferVar z ∧ z ≠ x := by
    intro y z hz
    rw [hres] at hz
    rcases (S.resolve y).rigid_or_var with hy | ⟨w, hw⟩
    · have hrigid := Ty.rigid_subst hy (single x (t.subst S.resolve))
      rw [hz] at hrigid
      exact hrigid.elim
    · rw [hw, Ty.subst_inferVar] at hz
      by_cases hwx : w = x
      · rw [hwx, single_self] at hz
        rw [hz] at hr
        exact hr.elim
      · rw [single_of_ne hwx] at hz
        exact ⟨hw.trans hz, fun e => hwx ((Ty.inferVar.inj hz).trans e)⟩
  refine ⟨fun y hy hrigid => ?_, fun y hy z hz => h.within y hy z (hvar hz).1, fun z hz hu => ?_⟩
  · rw [hres] at hrigid ⊢
    rcases (S.resolve y).rigid_or_var with hyr | ⟨w, hw⟩
    · rw [InferDomain.admits_subst _ hyr]
      exact h.admits y hy hyr
    · rw [hw, Ty.subst_inferVar] at hrigid ⊢
      by_cases hwx : w = x
      · subst hwx
        rw [single_self]
        exact InferDomain.admits_of_intersect (h.within y hy w hw) hadmits
      · rw [single_of_ne hwx] at hrigid
        exact hrigid.elim
  · obtain ⟨hu, hzx⟩ := hvar hu
    refine (h.attained z hz hu).imp_right ?_
    rintro ⟨y, hy, hyz, hd⟩
    refine ⟨y, hy, ?_, hd⟩
    rw [hres, hyz, Ty.subst_inferVar, single_of_ne hzx]

/-- Two classes linked under the intersection of their domains. -/
theorem link (h : Meets S.resolve δ D n) (hxn : x < n) (ht : t.subst S.resolve = .inferVar y)
    (hy : S.Unresolved y) {d : InferDomain} (hd : (D x).intersect (D y) = some d)
    (hD : ∀ z, D' z = if z = y then d else D z) :
    Meets (S.extend Γ hocc).resolve δ D' n := by
  have hres : ∀ y, (S.extend Γ hocc).resolve y = (S.resolve y).subst (single x (t.subst S.resolve)) :=
    fun _ => rfl
  have hyx : y ≠ x := by
    rintro rfl
    exact hocc (by rw [ht]; simp)
  have hvar : ∀ {w z}, S.resolve w = .inferVar z →
      (S.extend Γ hocc).resolve w = .inferVar (if z = x then y else z) := by
    intro w z hz
    rw [hres, hz, Ty.subst_inferVar]
    split
    · rename_i hzx
      rw [hzx, single_self, ht]
    · rename_i hzx
      exact single_of_ne hzx
  refine ⟨fun w hw hrigid => ?_, fun w hw z hz => ?_, fun z hz hu => ?_⟩
  · rcases (S.resolve w).rigid_or_var with hwr | ⟨u, hu⟩
    · rw [hres, InferDomain.admits_subst _ hwr]
      exact h.admits w hw hwr
    · rw [hvar hu] at hrigid
      exact hrigid.elim
  · rcases (S.resolve w).rigid_or_var with hwr | ⟨u, hu⟩
    · have hrigid := Ty.rigid_subst hwr (single x (t.subst S.resolve))
      rw [← hres, hz] at hrigid
      exact hrigid.elim
    · rw [hvar hu, Ty.inferVar.injEq] at hz
      have hwu := h.within w hw u hu
      rw [hD, ← hz]
      by_cases hux : u = x
      · rw [if_pos hux, if_pos rfl]
        exact InferDomain.intersect_trans (hux ▸ hwu) (InferDomain.intersect_left hd)
      · rw [if_neg hux]
        split
        · rename_i huy
          exact InferDomain.intersect_trans (huy ▸ hwu) (InferDomain.intersect_right hd)
        · exact hwu
  · obtain ⟨hzx, hzu⟩ := extend_unresolved hocc hu
    have hzu : S.Unresolved z := hzu.elim id fun e => Ty.inferVar.inj (ht.symm.trans e) ▸ hy
    rw [hD]
    split
    · rename_i hzy
      -- the intersection is the domain of one of the two classes
      rcases InferDomain.eq_of_intersect hd with rfl | rfl
      · refine (h.attained x hxn hx).imp_right ?_
        rintro ⟨w, hw, hwx, he⟩
        refine ⟨w, hw, ?_, he⟩
        rw [hvar hwx, if_pos rfl, hzy]
      · refine (h.attained y (hzy ▸ hz) hy).imp_right ?_
        rintro ⟨w, hw, hwy, he⟩
        refine ⟨w, hw, ?_, he⟩
        rw [hvar hwy, if_neg hyx, hzy]
    · refine (h.attained z hz hzu).imp_right ?_
      rintro ⟨w, hw, hwz, he⟩
      exact ⟨w, hw, by rw [hvar hwz, if_neg hzx], he⟩

end Extend

end Meets

/-- The resolution is the same, or `x` is now resolved to `t`. -/
def Store.Extends (S S' : Store) (x : InferVarIndex) (t : Ty) : Prop :=
  S'.resolve = S.resolve ∨
    ∀ y, S'.resolve y = (S.resolve y).subst (Store.single x (t.subst S.resolve))

open Loop

namespace VersionedEGraph

variable {g g' : VersionedEGraph} {v w : Version} {S : Store} {r : Except UnifyError Unit}
  {x y : InferVarIndex} {t : Ty} {fuel : Nat}

/-- The domain a variable was created with. -/
@[grind =] def initialDomain (g : VersionedEGraph) (x : InferVarIndex) : InferDomain :=
  (g.versions.getVariable x).initialDomain

/-- Version `v` keeps every class in the domains of its members. -/
structure InDomain (g : VersionedEGraph) (v : Version) (S : Store) : Prop where
  represents : Represents g v S
  allocated : S.Allocated g.varCount
  unset : ∀ x, g.varCount ≤ x → (g.view v).domain (.inferVar x) = none
  meets : Meets S.resolve g.initialDomain (g.restrictions v).domain g.varCount

theorem restrictions_domain (g : VersionedEGraph) (v : Version) (x : InferVarIndex) :
    (g.restrictions v).domain x = ((g.view v).domain (.inferVar x)).getD (g.initialDomain x) := rfl

theorem Lowered.restrictions_domain {X : Set InferVarIndex} {ceiling : Universe}
    (h : Lowered v X ceiling g g') (x : InferVarIndex) :
    (g'.restrictions v).domain x = (g.restrictions v).domain x := by
  rw [VersionedEGraph.restrictions_domain, VersionedEGraph.restrictions_domain, h.domain,
    initialDomain, initialDomain, h.versions]

namespace InDomain

/-- The same resolution and the same domains. -/
theorem congr {S' : Store} (h : InDomain g v S) (hrep : Represents g' w S')
    (hr : S'.resolve = S.resolve) (hd : (g'.view w).domain = (g.view v).domain)
    (hi : ∀ x < g.varCount, g'.initialDomain x = g.initialDomain x)
    (hn : g.varCount ≤ g'.varCount) : InDomain g' w S' where
  represents := hrep
  allocated := (h.allocated.mono hn).congr hr
  unset x hx := by
    rw [hd]
    exact h.unset x (Nat.le_trans hn hx)
  meets := by
    rw [hr]
    refine h.meets.mono h.allocated hn hi (fun x hx => ?_) fun x hx => ?_
    · rw [restrictions_domain, restrictions_domain, hd, hi x hx]
    · rw [restrictions_domain, hd, h.unset x hx]
      rfl

theorem of_versions {S' : Store} (h : InDomain g v S) (hrep : Represents g' w S')
    (hr : S'.resolve = S.resolve) (hd : (g'.view w).domain = (g.view v).domain)
    (hversions : g'.versions = g.versions) : InDomain g' w S' :=
  h.congr hrep hr hd (fun x _ => by rw [initialDomain, initialDomain, hversions])
    (Nat.le_of_eq (by rw [varCount, varCount, hversions]))

/-- Ceilings lowered. -/
theorem lowered {X : Set InferVarIndex} {ceiling : Universe} (h : InDomain g v S)
    (hl : Lowered v X ceiling g g') : InDomain g' v { S with restrictions := g'.restrictions v } :=
  h.of_versions (hl.represents h.represents) rfl hl.domain hl.versions

/-- The class of `x` pointed at a type its domain admits. -/
theorem point (h : InDomain g v S) (hx : S.Unresolved x) (hxn : x < g.varCount)
    (ht : Covers (vars g) S t) (hr : (t.subst S.resolve).Rigid)
    (hocc : x ∉ (t.subst S.resolve).vars)
    (hadmits : ((g.restrictions v).domain x).admits (t.subst S.resolve) = true) :
    ∃ S', InDomain ((g.setBoundIn v (.inferVar x) (.exactly t)).union v (.inferVar x) t).2 v S' ∧
      S.Extends S' x t := by
  obtain ⟨hrep, hrestrictions⟩ := h.represents.bind hx hr hocc rfl rfl
  have hset := KeepsRestrictions.setBoundIn h.represents.wf h.represents.lt x (.exactly t)
  have hkeeps := hset.trans (.union (hset.wf h.represents.wf) (hset.length ▸ h.represents.lt)
    (.inferVar x) t)
  refine ⟨_, ⟨hrep, ?_, fun z hz => ?_, ?_⟩, .inr fun _ => rfl⟩
  · rw [hkeeps.varCount_eq]
    exact h.allocated.extend hocc hxn fun y hy => Finset.mem_range.mp (ht y hy)
  · rw [hkeeps.domain]
    exact h.unset z (hkeeps.varCount_eq ▸ hz)
  · have hinitial : ∀ z, VersionedEGraph.initialDomain
        ((g.setBoundIn v (.inferVar x) (.exactly t)).union v (.inferVar x) t).2 z =
          g.initialDomain z := fun z => by rw [initialDomain, initialDomain, hkeeps.versions]
    rw [hrestrictions, hkeeps.varCount_eq, funext hinitial]
    exact h.meets.bind hocc hx hr hadmits

theorem bindVariable (h : InDomain g v S) (hx : S.Unresolved x) (hxn : x < g.varCount)
    (ht : Covers (vars g) S t) (hr : (t.subst S.resolve).Rigid)
    (hadmits : (S.restrictions.domain x).admits (t.subst S.resolve) = true)
    (hrun : g.bindVariable fuel v (.inferVar x) x t = some (r, g')) :
    ∃ S', InDomain g' v S' ∧ S.Extends S' x t := by
  simp only [VersionedEGraph.bindVariable] at hrun
  split at hrun
  · cases hrun
  · simp only [Option.some.injEq, Prod.mk.injEq] at hrun
    exact ⟨S, hrun.2 ▸ h, .inl rfl⟩
  rename_i hocc
  have hnotMem : x ∉ (t.subst S.resolve).vars := fun hm => by
    cases (h.represents.occursIn_iff hocc).mpr hm
  split at hrun
  · cases hrun
  · rename_i hacc
    simp only [Option.some.injEq, Prod.mk.injEq] at hrun
    obtain ⟨-, rfl⟩ := hrun
    exact ⟨_, h.lowered (makeAccessible_spec fuel t g S [] _ _ _ h.represents hacc).lowered,
      .inl rfl⟩
  · rename_i g₁ hacc
    simp only [Option.some.injEq, Prod.mk.injEq] at hrun
    obtain ⟨-, rfl⟩ := hrun
    obtain ⟨hl, -, -⟩ := makeAccessible_ok h.represents hacc
    have h₁ := h.lowered hl
    have hcount : g₁.varCount = g.varCount := by rw [varCount, varCount, hl.versions]
    refine h₁.point hx (hcount ▸ hxn) (fun y hy => ?_) hr hnotMem ?_
    · rw [vars, hcount]
      exact ht y hy
    · rw [h.represents.domain x hx] at hadmits
      exact hl.restrictions_domain x ▸ hadmits

/-- Two classes linked under a common domain. -/
theorem link (h : InDomain g v S) (hx : S.Unresolved x) (hy : S.Unresolved y) (hxy : y ≠ x)
    (hxn : x < g.varCount) (hyn : y < g.varCount) {m : InferDomain}
    (hm : ((g.restrictions v).domain x).intersect ((g.restrictions v).domain y) = some m) :
    ∃ S', InDomain ((g.union v (.inferVar x) (.inferVar y)).2.setDomainIn v
      (g.union v (.inferVar x) (.inferVar y)).1 m) v S' ∧ S.Extends S' x (.inferVar y) := by
  have hsy : (Ty.inferVar y).subst S.resolve = .inferVar y := (Ty.subst_inferVar _ _).trans hy
  have hocc : x ∉ ((Ty.inferVar y).subst S.resolve).vars := by
    rw [hsy, Ty.mem_vars_inferVar]
    exact hxy.symm
  obtain ⟨hrep, hdomain, -⟩ := h.represents.link (m := m) hx hy hocc rfl
  obtain ⟨hfst, -, hroot⟩ := h.represents.union_vars hx hy hxy
  have hunion := KeepsRestrictions.union h.represents.wf h.represents.lt (.inferVar x) (.inferVar y)
  have hview := view_setDomainIn (hunion.wf h.represents.wf) (hunion.length ▸ h.represents.lt)
    (.inferVar y) hroot m
  rw [hfst] at hrep hdomain ⊢
  generalize hg₂ : (g.union v (.inferVar x) (.inferVar y)).2 = g₂ at *
  have hversions : (g₂.setDomainIn v (.inferVar y) m).versions = g.versions := by
    rw [← hunion.versions]
    simp only [setDomainIn, hroot]
    split <;> rfl
  have hcount : (g₂.setDomainIn v (.inferVar y) m).varCount = g.varCount := by
    rw [varCount, varCount, hversions]
  have hinitial : ∀ z, (g₂.setDomainIn v (.inferVar y) m).initialDomain z = g.initialDomain z :=
    fun z => by rw [initialDomain, initialDomain, hversions]
  refine ⟨_, ⟨hrep, ?_, fun z hz => ?_, ?_⟩, .inr fun _ => rfl⟩
  · rw [hcount]
    refine h.allocated.extend hocc hxn fun z hz => ?_
    rw [hsy, Ty.mem_vars_inferVar] at hz
    exact hz ▸ hyn
  · rw [hcount] at hz
    have hzy : Ty.inferVar z ≠ .inferVar y := fun e =>
      Nat.not_lt.mpr hz (Ty.inferVar.inj e ▸ hyn)
    rw [hview]
    split
    · rw [hunion.domain]
      exact h.unset z hz
    · simp only [Function.update_of_ne hzy, hunion.domain]
      exact h.unset z hz
  · rw [hcount, funext hinitial]
    exact h.meets.link hocc hx hxn hsy hy hm hdomain

theorem unifyVariables (h : InDomain g v S) (hx : S.Unresolved x) (hy : S.Unresolved y)
    (hxy : y ≠ x) (hxn : x < g.varCount) (hyn : y < g.varCount)
    (hrun : g.unifyVariables v (.inferVar x) (.inferVar y) x y = some (r, g')) :
    ∃ S', InDomain g' v S' ∧ S.Extends S' x (.inferVar y) := by
  have hsx : (Ty.inferVar x).subst S.resolve = .inferVar x := (Ty.subst_inferVar _ _).trans hx
  have hsy : (Ty.inferVar y).subst S.resolve = .inferVar y := (Ty.subst_inferVar _ _).trans hy
  simp only [VersionedEGraph.unifyVariables] at hrun
  rcases compatibleDomain_var_var h.represents hsx hsy with ⟨m, hm, hd⟩ | ⟨-, e, hd⟩
  · rw [hd] at hrun
    simp only [Option.some.injEq, Prod.mk.injEq, Option.getD_some] at hrun
    obtain ⟨-, hg'⟩ := hrun
    obtain ⟨hl, -⟩ := lowered_pair (x := x) (y := y)
      (c := min (g.currentUniverse v x) (g.currentUniverse v y)) h.represents rfl
    generalize (g.lowerUniverse v x _).lowerUniverse v y _ = g₂ at hl hg'
    have hcount : g₂.varCount = g.varCount := by rw [varCount, varCount, hl.versions]
    rw [h.represents.domain x hx, h.represents.domain y hy, ← hl.restrictions_domain,
      ← hl.restrictions_domain] at hm
    exact hg' ▸ (h.lowered hl).link hx hy hxy (hcount ▸ hxn) (hcount ▸ hyn) hm
  · rw [hd] at hrun
    simp only [Option.some.injEq, Prod.mk.injEq] at hrun
    exact ⟨S, hrun.2 ▸ h, .inl rfl⟩

/-- An error type belongs to every domain. -/
theorem recovery {e : ErrorReported} (h : InDomain g v S) (hx : S.Unresolved x)
    (hxn : x < g.varCount) :
    ∃ S', InDomain
      ((g.setBoundIn v (.inferVar x) (.exactly (.error e))).union v (.inferVar x) (.error e)).2
      v S' := by
  have hno : ∀ y, y ∉ ((Ty.error e).subst S.resolve).vars := fun _ => Ty.notMem_vars_error
  obtain ⟨S', h', -⟩ := h.point hx hxn (fun y hy => absurd hy (hno y)) trivial (hno x)
    (InferDomain.admits_error _ e)
  exact ⟨S', h'⟩

theorem unifyInvariant (v : Version) : UnifyInvariant v fun g S => InDomain g v S where
  represents h := h.represents
  allocated h := h.allocated
  congr h hrep hr hk := h.of_versions hrep hr hk.domain hk.versions
  bind h hx hxn ht hr hadmits _ hrun := by
    obtain ⟨S', h', -⟩ := h.bindVariable hx hxn ht hr hadmits hrun
    exact ⟨S', h'⟩
  link h hx hy hxy hxn hyn hrun := by
    obtain ⟨S', h', -⟩ := h.unifyVariables hx hy hxy hxn hyn hrun
    exact ⟨S', h'⟩

theorem versionInvariant : VersionInvariant InDomain where
  unify := unifyInvariant
  transfer h hrep hr ht := h.congr hrep hr ht.domain ht.initialDomain ht.varCount_le
  recovery := recovery

end InDomain

end VersionedEGraph

end Sage
