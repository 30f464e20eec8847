import Sage.Infer.Domain

/-!
# Inference — the domains along a run

* `AllocatedRun` — the runs whose types mention allocated variables; placeholders may be
  registered at any time.
* `Clashes` — two types that cannot be made equal within the domains.
* `allocatedRun_domains` — in every state of such a run the domain of a class is the intersection
  of the domains of its members, its type belongs to each, and an equality against the domains
  fails without a change.
-/

namespace Sage

open Loop

namespace VersionedEGraph

variable {g g' : VersionedEGraph} {v : Version} {S : Store} {a b : Ty}

/-- The variables of the class of `x`. -/
def classMembers (g : VersionedEGraph) (v : Version) (x : InferVarIndex) : List InferVarIndex :=
  (List.range g.varCount).filter fun y => g.find v (.inferVar y) = g.find v (.inferVar x)

theorem mem_classMembers {x y : InferVarIndex} : y ∈ g.classMembers v x ↔
    y < g.varCount ∧ g.find v (.inferVar y) = g.find v (.inferVar x) := by
  rw [classMembers, List.mem_filter, List.mem_range, decide_eq_true_iff]

/-- At some place of the two types, classes with disjoint domains are opposite each other, or a
class and a type its domain does not admit. -/
inductive Clashes (g : VersionedEGraph) (v : Version) : Ty → Ty → Prop
  | domains {a b : Ty} {d d' : InferDomain} (ha : g.effectiveDomain v a = some d)
      (hb : g.effectiveDomain v b = some d') (hd : d.intersect d' = none) : Clashes g v a b
  | notAdmitted {a b : Ty} {d : InferDomain} (ha : g.effectiveDomain v a = some d)
      (hb : (g.find v b).Rigid) (hd : ¬ d.admits (g.find v b) = true) : Clashes g v a b
  | symm {a b : Ty} (h : Clashes g v a b) : Clashes g v b a
  | child {a b : Ty} {pair : Ty × Ty}
      (hp : pair ∈ (decompose (g.find v a)).children.zip (decompose (g.find v b)).children)
      (h : Clashes g v pair.1 pair.2) : Clashes g v a b

theorem effectiveDomain_congr {w : Version} (hf : g'.find w = g.find v)
    (hd : (g'.restrictions w).domain = (g.restrictions v).domain) (t : Ty) :
    g'.effectiveDomain w t = g.effectiveDomain v t := by
  simp only [effectiveDomain, hf]
  split
  · rename_i x hx
    rw [hf, hx]
    exact congrArg some (congrFun hd x)
  · rfl

/-- A clash depends on the representatives and the domains only. -/
theorem Clashes.congr {w : Version} (hf : g'.find w = g.find v)
    (hd : (g'.restrictions w).domain = (g.restrictions v).domain) (h : g.Clashes v a b) :
    g'.Clashes w a b := by
  have he := effectiveDomain_congr hf hd
  induction h with
  | domains ha hb hdisjoint => exact .domains ((he _).trans ha) ((he _).trans hb) hdisjoint
  | notAdmitted ha hb hadmits =>
      exact .notAdmitted ((he _).trans ha) (hf ▸ hb) (hf ▸ hadmits)
  | symm _ ih => exact .symm ih
  | child hp _ ih => exact .child (hf ▸ hp) ih

/-! ### Classes and their domains -/

namespace InDomain

/-- The domain of a class is the intersection of the domains of its members. -/
theorem effectiveDomain_eq (h : InDomain g v S) {x y : InferVarIndex} (hx : x < g.varCount)
    (hf : g.find v (.inferVar x) = .inferVar y) :
    ∃ d, g.effectiveDomain v (.inferVar x) = some d ∧
      InferDomain.intersectAll ((g.classMembers v x).map g.initialDomain) = some d := by
  have hres : ∀ {z}, g.find v (.inferVar z) = .inferVar y ↔ S.resolve z = .inferVar y := by
    intro z
    rw [h.represents.find_eq_inferVar, Ty.subst_inferVar]
  have hxy := hres.mp hf
  have hy : S.Unresolved y := Store.unresolved_of_eq ((Ty.subst_inferVar _ _).trans hxy)
  have hyn : y < g.varCount := h.allocated.within x hx y (by rw [hxy, Ty.mem_vars_inferVar])
  have hmem : ∀ {z}, z ∈ g.classMembers v x ↔ z < g.varCount ∧ S.resolve z = .inferVar y := by
    intro z
    rw [mem_classMembers, hf, hres]
  refine ⟨(g.restrictions v).domain y, ?_, InferDomain.intersectAll_eq (fun d hd => ?_) ?_⟩
  · rw [h.represents.effectiveDomain_of_var ((Ty.subst_inferVar _ _).trans hxy),
      h.represents.domain y hy]
  · obtain ⟨z, hz, rfl⟩ := List.mem_map.mp hd
    exact h.meets.within z (hmem.mp hz).1 y (hmem.mp hz).2
  · refine (h.meets.attained y hyn hy).imp_right ?_
    rintro ⟨z, hz, hzy, hd⟩
    exact List.mem_map.mpr ⟨z, hmem.mpr ⟨hz, hzy⟩, hd⟩

/-- A resolved class is resolved to a type of the domain of each of its members. -/
theorem admits_find (h : InDomain g v S) {x y : InferVarIndex}
    (hr : (g.find v (.inferVar x)).Rigid) (hy : y ∈ g.classMembers v x) :
    (g.initialDomain y).admits (g.find v (.inferVar x)) = true := by
  obtain ⟨hyn, hf⟩ := mem_classMembers.mp hy
  rw [← hf] at hr ⊢
  have hres : (g.find v (.inferVar y)).subst S.resolve = S.resolve y := by
    rw [h.represents.subst_find, Ty.subst_inferVar]
  have hadmits := h.meets.admits y hyn (hres ▸ Ty.rigid_subst hr S.resolve)
  rwa [← hres, InferDomain.admits_subst _ hr] at hadmits

/-! ### Equalities against the domains -/

theorem ne_error_of_extends {S' : Store} {x y : InferVarIndex} {t : Ty} (h : S.Extends S' x t)
    (ht : ∀ e, t.subst S.resolve ≠ .error e) (hy : ∀ e, S.resolve y ≠ .error e) :
    ∀ e, S'.resolve y ≠ .error e := by
  rcases h with h | h
  · rw [h]
    exact hy
  rw [h]
  rcases (S.resolve y).rigid_or_var with hr | ⟨z, hz⟩
  · exact Ty.subst_ne_error hr hy _
  · rw [hz, Ty.subst_inferVar]
    by_cases hzx : z = x
    · rw [hzx, Store.single_self]
      exact ht
    · rw [Store.single_of_ne hzx]
      exact fun e he => by cases he

/-- Unification resolves no variable to an error type. -/
theorem unifyInvariant_ne_error (v : Version) (X : Set InferVarIndex) :
    UnifyInvariant v fun g S => InDomain g v S ∧ ∀ x ∈ X, ∀ e, S.resolve x ≠ .error e where
  represents h := h.1.represents
  allocated h := h.1.allocated
  congr h hrep hr hk := ⟨(unifyInvariant v).congr h.1 hrep hr hk, hr ▸ h.2⟩
  bind h hx hxn ht hr hadmits hne hrun := by
    obtain ⟨S', h', hext⟩ := h.1.bindVariable hx hxn ht hr hadmits hrun
    exact ⟨S', h', fun y hy => ne_error_of_extends hext hne (h.2 y hy)⟩
  link {g g' S r x y} h hx hy hxy hxn hyn hrun := by
    obtain ⟨S', h', hext⟩ := h.1.unifyVariables hx hy hxy hxn hyn hrun
    have hne : ∀ e, (Ty.inferVar y).subst S.resolve ≠ .error e := fun e he => by
      rw [Ty.subst_inferVar, show S.resolve y = .inferVar y from hy] at he
      cases he
    exact ⟨S', h', fun z hz => ne_error_of_extends hext hne (h.2 z hz)⟩

/-- What a later state gives an unresolved class is of the domain the class had. -/
theorem contains_resolve {S' : Store} (h : InDomain g v S) (h' : InDomain g' v S')
    (hn : g.varCount ≤ g'.varCount) (hi : ∀ x < g.varCount, g'.initialDomain x = g.initialDomain x)
    (hnarrows : ∀ t u : Ty, t.subst S.resolve = u.subst S.resolve →
      t.subst S'.resolve = u.subst S'.resolve) {x : InferVarIndex} (hx : S.Unresolved x)
    (hxn : x < g.varCount) :
    ((g.restrictions v).domain x).Contains (g'.restrictions v) (S'.resolve x) := by
  rcases h.meets.attained x hxn hx with hd | ⟨y, hy, hyx, hd⟩
  · rw [hd]
    cases S'.resolve x <;> rfl
  · have hres : S'.resolve y = S'.resolve x := by
      have he := hnarrows (.inferVar y) (.inferVar x) (by rw [Ty.subst_inferVar, Ty.subst_inferVar,
        hyx, show S.resolve x = .inferVar x from hx])
      rwa [Ty.subst_inferVar, Ty.subst_inferVar] at he
    rw [← hd, ← hres, ← hi y hy]
    have hyn := Nat.lt_of_lt_of_le hy hn
    rcases (S'.resolve y).rigid_or_var with hr | ⟨z, hz⟩
    · exact (InferDomain.contains_iff hr).mpr (h'.meets.admits y hyn hr)
    · rw [hz]
      exact h'.meets.within y hyn z hz

/-- No assignment within the domains equates types that clash. -/
theorem subst_ne_of_clashes (h : InDomain g v S) {Γ : Restrictions} {θ : InferVarIndex → Ty}
    (hrespects : ∀ t, (g.find v t).subst θ = t.subst θ)
    (hcontains : ∀ x < g.varCount, S.Unresolved x →
      ((g.restrictions v).domain x).Contains Γ (θ x) ∧ ∀ e, θ x ≠ .error e)
    (hc : g.Clashes v a b) (ha : Covers (vars g) S a) (hb : Covers (vars g) S b) :
    a.subst θ ≠ b.subst θ := by
  have hclass : ∀ {t d}, Covers (vars g) S t → g.effectiveDomain v t = some d →
      d.Contains Γ (t.subst θ) ∧ ∀ e, t.subst θ ≠ .error e := by
    intro t d ht hd
    rcases (t.subst S.resolve).rigid_or_var with hr | ⟨x, hx⟩
    · rw [h.represents.effectiveDomain_of_rigid hr] at hd
      cases hd
    · have hu := Store.unresolved_of_eq hx
      rw [h.represents.effectiveDomain_of_var hx, h.represents.domain x hu, Option.some.injEq] at hd
      rw [← hrespects, h.represents.find_eq_inferVar.mpr hx, Ty.subst_inferVar, ← hd]
      exact hcontains x (Finset.mem_range.mp (ht x (by rw [hx, Ty.mem_vars_inferVar]))) hu
  induction hc with
  | domains hd hd' hdisjoint =>
      intro he
      obtain ⟨hca, hne⟩ := hclass ha hd
      obtain ⟨m, hm, -⟩ := InferDomain.contains_inter hne hca (he ▸ (hclass hb hd').1)
      rw [hdisjoint] at hm
      cases hm
  | @notAdmitted a b d hd hr hadmits =>
      intro he
      have hca := (hclass ha hd).1
      rw [he, ← hrespects b, InferDomain.contains_iff (Ty.rigid_subst hr θ),
        InferDomain.admits_subst _ hr] at hca
      exact hadmits hca
  | symm _ ih => exact (ih hb ha).symm
  | @child a b pair hp _ ih =>
      intro he
      have hra := Ty.rigid_of_mem_children (List.of_mem_zip hp).1
      have hrb := Ty.rigid_of_mem_children (List.of_mem_zip hp).2
      rw [← hrespects a, ← hrespects b] at he
      have hs := ((Ty.subst_eq_subst_iff hra hrb).mp he).1
      exact ih ((ha.find h.represents).child (List.of_mem_zip hp).1)
        ((hb.find h.represents).child (List.of_mem_zip hp).2)
        ((subst_eq_iff_zip hra hrb hs θ).mp he pair hp)

/-- Unification of types that clash cannot succeed. -/
theorem unifyInProbe_ne_ok (h : InDomain g v S) (hc : g.Clashes v a b)
    (ha : Covers (vars g) S a) (hb : Covers (vars g) S b) (n : Nat) (g' : VersionedEGraph) :
    VersionedEGraph.unifyInProbe n v a b g ≠ some (.ok (), g') := by
  intro hrun
  have hstart : ∀ x ∈ {x | S.Unresolved x}, ∀ e, S.resolve x ≠ .error e := fun x hx e he => by
    rw [show S.resolve x = .inferVar x from hx] at he
    cases he
  obtain ⟨S₁, h₁, hne⟩ := (unifyInvariant_ne_error v {x | S.Unresolved x}).unifyInProbe n a b
    ⟨h, hstart⟩ ha hb hrun
  obtain ⟨S', h'⟩ := unifyInProbe_spec n a b g S _ g' h.represents ha hb hrun
  have hres : S₁.resolve = S'.resolve := h₁.represents.resolution.unique h'.represents.resolution
  have hl := Local.unifyInProbe n hrun
  have hnarrows : ∀ t u : Ty, t.subst S.resolve = u.subst S.resolve →
      t.subst S₁.resolve = u.subst S₁.resolve := hres ▸ h'.narrows.equates
  refine h.subst_ne_of_clashes (θ := S₁.resolve) (Γ := g'.restrictions v) (fun t => ?_)
    (fun x hxn hx => ⟨?_, hne x hx⟩) hc ha hb (hres ▸ h'.equates rfl)
  · exact hnarrows _ _ (h.represents.subst_find t)
  · exact h.contains_resolve h₁ hl.varCount_le hl.carries.initialDomain hnarrows hx hxn

end InDomain

/-! ### Runs over allocated variables -/

theorem throughout_inDomain_new : Throughout InDomain .new := by
  intro v hv
  obtain ⟨S, hS⟩ := Modelled.new.store v hv
  obtain rfl := new_eq_zero hv
  have hu : ∀ x, S.Unresolved x := fun x => hS.unresolved_of_root (new_getParent _)
  have hno : ∀ {x}, ¬ x < VersionedEGraph.new.varCount := fun hx => absurd hx (Nat.not_lt_zero _)
  exact ⟨S, hS, ⟨fun x _ => hu x, fun x hx => absurd hx hno⟩, fun x _ => rfl,
    ⟨fun x hx => absurd hx hno, fun x hx => absurd hx hno, fun y hy => absurd hy hno⟩⟩

theorem InDomain.registerPlaceholder (h : InDomain g v S) (param : GenericParam) (u : Universe) :
    ∃ S', InDomain (g.registerPlaceholder param u) v S' := by
  have hS := h.represents
  have hwf : (g.registerPlaceholder param u).WF := ⟨hS.wf.versions, hS.wf.length⟩
  exact ⟨_, h.of_versions (hS.of_view hwf hS.lt rfl rfl rfl) rfl rfl rfl⟩

section Runs

variable [HashOrder]

/-- A step over allocated variables; a placeholder may be registered at any time. -/
inductive AllocatedStep (g : VersionedEGraph) : Event → VersionedEGraph → Prop
  | ofScoped {event : Event} {g' : VersionedEGraph} (h : ScopedStep g event g') :
      AllocatedStep g event g'
  | registerPlaceholder (param : GenericParam) (u : Universe)
      (h : ∀ previous, g.placeholderUniverses.lookup param = some previous → previous = u) :
      AllocatedStep g (.registered param) (g.registerPlaceholder param u)

/-- The states any sequence of such steps leads to. -/
inductive AllocatedRun : VersionedEGraph → Prop
  | new : AllocatedRun .new
  | step {g g' : VersionedEGraph} {event : Event} (h : AllocatedRun g)
      (hs : AllocatedStep g event g') : AllocatedRun g'

theorem AllocatedStep.step {event : Event} (h : AllocatedStep g event g') :
    Step Bound.IsExact g event g' := by
  cases h with
  | ofScoped h => exact h.step
  | registerPlaceholder param u h => exact .registerPlaceholder param u h

theorem AllocatedRun.reachable (h : AllocatedRun g) : Reachable Bound.IsExact g := by
  induction h with
  | new => exact .new
  | step _ hs ih => exact .step ih hs.step

/-- One step keeps every version in its domains. -/
theorem AllocatedStep.inDomain {event : Event} (hg : g.Valid) (h : Throughout InDomain g)
    (hs : AllocatedStep g event g') : Throughout InDomain g' := by
  have hregister : ∀ param u, Throughout InDomain (g.registerPlaceholder param u) := by
    intro param u w hw
    obtain ⟨S, hS⟩ := h w hw
    exact hS.registerPlaceholder param u
  cases hs with
  | ofScoped hs =>
      exact InDomain.versionInvariant.step hg h hs fun _ he => he ▸ hregister _ _
  | registerPlaceholder param u _ => exact hregister param u

theorem AllocatedRun.inDomain (h : AllocatedRun g) : Throughout InDomain g := by
  induction h with
  | new => exact throughout_inDomain_new
  | step hg hs ih => exact hs.inDomain hg.reachable.valid ih

/-- In every state of a run and every live version, the effective domain of an unresolved class is
the intersection of the domains its members were created with, and a resolved class is resolved
to a type of each of them; a transaction that fails changes no observation; and an equality that
clashes with the domains fails, and as a transaction changes none. -/
theorem allocatedRun_domains (hg : AllocatedRun g) :
    (∀ v, g.versions.isLive v = true → ∀ x < g.varCount,
      (∀ y, g.find v (.inferVar x) = .inferVar y →
        ∃ d, g.effectiveDomain v (.inferVar x) = some d ∧
          InferDomain.intersectAll ((g.classMembers v x).map g.initialDomain) = some d) ∧
      ((g.find v (.inferVar x)).Rigid → ∀ y ∈ g.classMembers v x,
        (g.initialDomain y).admits (g.find v (.inferVar x)) = true)) ∧
    (∀ parent g', AllocatedStep g (.ended parent false) g' → ∀ w, g.versions.isLive w = true →
      g'.versions.isLive w = true ∧ g'.observe w = g.observe w) ∧
    ∀ v a b, g.Allocates a → g.Allocates b → g.Clashes v a b →
      (g.versions.isLive v = true → ∃ e g' N, ∀ n ≥ N,
        unifyInProbe n v a b g = some (.error e, g')) ∧
      (g.IsMutable v → ∃ N, ∀ n ≥ N, ∃ e g', g.tryUnify n v a b = some (.error e, g') ∧
        ∀ w, g.versions.isLive w = true →
          g'.versions.isLive w = true ∧ g'.observe w = g.observe w) := by
  have h := hg.inDomain
  have hfail : ∀ parent g', AllocatedStep g (.ended parent false) g' → ∀ w,
      g.versions.isLive w = true → g'.versions.isLive w = true ∧ g'.observe w = g.observe w :=
    fun parent g' hs => (step_isolated hg.reachable hs.step).1 parent rfl
  refine ⟨fun v hv x hx => ?_, hfail, fun v a b ha hb hc => ⟨fun hv => ?_, fun hv => ?_⟩⟩
  · obtain ⟨S, hS⟩ := h v hv
    exact ⟨fun y hy => hS.effectiveDomain_eq hx hy, fun hr y hy => hS.admits_find hr hy⟩
  · obtain ⟨S, hS⟩ := h v hv
    exact unifyInProbe_fails hS.represents
      (hS.unifyInProbe_ne_ok hc (ha.covers hS.allocated) (hb.covers hS.allocated))
  · obtain ⟨S, hS⟩ := InDomain.versionInvariant.probe hg.reachable.valid h hv.1
    have hvalid := hg.reachable.valid
    have hfind : (g.branchFrom v).2.find g.versions.nodes.length = g.find v :=
      congrArg Observation.find (observe_branchFrom_child hvalid.wf hv.1)
    have hbranch : (g.branchFrom v).2.Clashes g.versions.nodes.length a b :=
      hc.congr hfind (by rw [branchFrom_restrictions hvalid.wf hv.1])
    obtain ⟨e, N, hrun⟩ := tryUnify_fails hS.represents
      (hS.unifyInProbe_ne_ok hbranch (Allocates.covers ha hS.allocated)
        (Allocates.covers hb hS.allocated))
    refine ⟨N, fun n hn => ?_⟩
    obtain ⟨g', hn⟩ := hrun n hn
    have ht : ScopedTransaction g v (Except.isOk (.error e)) g' :=
      .tryUnifyBatch (fun p hp => (List.mem_singleton.mp hp).symm ▸ ⟨ha, hb⟩) hn
    exact ⟨e, g', hn, hfail v g' (.ofScoped (.transaction hv.1 (fun hok => by cases hok) ht))⟩

end Runs

/-- An integer variable next to a float variable. -/
def numerals : VersionedEGraph :=
  ((VersionedEGraph.new.allocVarInDomain 0 0 .integer).2.allocVarInDomain 0 0 .float).2

theorem allocatedRun_numerals : AllocatedRun numerals :=
  .step (.step .new (.ofScoped (.alloc ⟨by decide, by decide⟩ 0 .integer)))
    (.ofScoped (.alloc ⟨by decide, by decide⟩ 0 .float))

/-- The two cannot be equated. -/
theorem allocatedRun_domains_numerals :
    (∀ x < numerals.varCount, ∀ y, numerals.find 0 (.inferVar x) = .inferVar y →
      ∃ d, numerals.effectiveDomain 0 (.inferVar x) = some d ∧
        InferDomain.intersectAll ((numerals.classMembers 0 x).map numerals.initialDomain) =
          some d) ∧
    ∃ N, ∀ n ≥ N, ∃ e g', numerals.tryUnify n 0 (.inferVar 0) (.inferVar 1) = some (.error e, g') ∧
      ∀ w, numerals.versions.isLive w = true →
        g'.versions.isLive w = true ∧ g'.observe w = numerals.observe w := by
  obtain ⟨hdomain, -, hclash⟩ := allocatedRun_domains allocatedRun_numerals
  have hallocates : ∀ x < 2, numerals.Allocates (.inferVar x) := fun x hx y hy => by
    rw [Ty.mem_vars_inferVar] at hy
    exact hy ▸ hx
  refine ⟨fun x hx => (hdomain 0 (by decide) x hx).1, ?_⟩
  have hpair : numerals.Clashes 0 (.inferVar 0) (.inferVar 1) :=
    .domains (show _ = some InferDomain.integer from rfl) (show _ = some InferDomain.float from rfl) rfl
  exact (hclash 0 _ _ (hallocates 0 (by decide)) (hallocates 1 (by decide)) hpair).2
    ⟨by decide, by decide⟩

end VersionedEGraph

end Sage
