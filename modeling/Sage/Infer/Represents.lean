import Sage.Infer.Store
import Sage.Infer.Transaction

/-!
# Inference — the store a version represents

`Represents g v S` ties the pointers, domains, ceilings and bounds that version `v` sees to an
abstract store `S`: the resolution of `S` makes every type equal to its parent and leaves the
root variables unresolved.  It is `Resolution.Resolves` at the types, so a resolution is a most
general substitution for the recorded pointers (`Represents.solution_iff`).

* `Represents.findMut`, `addDependents`, `union_of_eq` — writes that keep the store.
* `Represents.lowerUniverse`, `makeAccessible` — writes that lower ceilings.
* `Represents.bind`, `Represents.link` — the two unions that extend the resolution.
-/

namespace Sage

open Loop

namespace VersionedEGraph

/-- What the version records about each variable. -/
def restrictions (g : VersionedEGraph) (v : Version) : Restrictions where
  domain x := ((g.view v).domain (.inferVar x)).getD (g.versions.getVariable x).initialDomain
  ceiling x := g.currentUniverse v x

/-- The pointers of version `v` resolve to the store `S`, which records the restrictions of the
unresolved variables; a bound says what the pointers say, and dependents are registered with
their children only. -/
structure Represents (g : VersionedEGraph) (v : Version) (S : Store) : Prop where
  wf : g.WF
  lt : v < g.states.length
  grounded : Chase.Grounded (g.getParent v)
  resolves : Resolution.Resolves (g.getParent v) Ty.term fun x => (S.resolve x).term
  domain : ∀ x, S.Unresolved x → S.restrictions.domain x = (g.restrictions v).domain x
  ceiling : ∀ x, S.Unresolved x → S.restrictions.ceiling x = (g.restrictions v).ceiling x
  bound : ∀ x b, (g.getBound v (.inferVar x)).ty = some b → b.subst S.resolve = S.resolve x
  dependents : ∀ c, ∀ d ∈ (g.view v).dependents c, c ∈ (decompose d).children

/-- `θ` satisfies what version `v` records: it makes every type equal to its parent and to its
exact bound, and gives each unresolved variable a type of its domain, without an error type or
anything above its universe. -/
structure Solves (g : VersionedEGraph) (v : Version) (Γ : Restrictions) (θ : InferVarIndex → Ty) :
    Prop where
  respects : ∀ t, (g.getParent v t).subst θ = t.subst θ
  bound : ∀ x b, g.getBound v (.inferVar x) = .exactly b → b.subst θ = θ x
  contains : ∀ x d, g.find v (.inferVar x) = .inferVar x →
    g.effectiveDomain v (.inferVar x) = some d → d.Contains Γ (θ x)
  accessible : ∀ x, g.find v (.inferVar x) = .inferVar x →
    (θ x).Accessible g.placeholderUniverse Γ (g.currentUniverse v x)

theorem currentUniverse_eq (g : VersionedEGraph) (v : Version) (x : InferVarIndex) :
    g.currentUniverse v x =
      ((g.view v).ceiling x).getD (g.versions.getVariable x).creationUniverse := rfl

theorem restrictions_eq {g g' : VersionedEGraph} {v w : Version}
    (hinfo : ∀ x, (g'.versions.getVariable x).creationUniverse =
        (g.versions.getVariable x).creationUniverse ∧
      (g'.versions.getVariable x).initialDomain = (g.versions.getVariable x).initialDomain)
    (hdomain : (g'.view w).domain = (g.view v).domain)
    (hceiling : (g'.view w).ceiling = (g.view v).ceiling) :
    g'.restrictions w = g.restrictions v := by
  simp only [restrictions, currentUniverse_eq, hinfo, hdomain, hceiling]

theorem restrictions_congr {g g' : VersionedEGraph} {v : Version}
    (hversions : g'.versions = g.versions) (hdomain : (g'.view v).domain = (g.view v).domain)
    (hceiling : (g'.view v).ceiling = (g.view v).ceiling) :
    g'.restrictions v = g.restrictions v :=
  restrictions_eq (fun x => by rw [hversions]; exact ⟨rfl, rfl⟩) hdomain hceiling

/-- A change of the pointers and of what is pending, and of nothing else recorded. -/
structure SameRecords (v : Version) (g g' : VersionedEGraph) : Prop where
  versions : g'.versions = g.versions
  domain : (g'.view v).domain = (g.view v).domain
  ceiling : (g'.view v).ceiling = (g.view v).ceiling
  bound : (g'.view v).bound = (g.view v).bound
  dependents : (g'.view v).dependents = (g.view v).dependents

namespace SameRecords

variable {g g' g'' : VersionedEGraph} {v : Version}

theorem refl (v : Version) (g : VersionedEGraph) : SameRecords v g g := ⟨rfl, rfl, rfl, rfl, rfl⟩

theorem trans (h : SameRecords v g g') (h' : SameRecords v g' g'') : SameRecords v g g'' :=
  ⟨h'.versions.trans h.versions, h'.domain.trans h.domain, h'.ceiling.trans h.ceiling,
    h'.bound.trans h.bound, h'.dependents.trans h.dependents⟩

theorem of_view {parent : Ty → Ty} {worklist : List Ty} {wakes : Set InferVarIndex}
    {revision : UInt64} (hversions : g'.versions = g.versions)
    (hview : g'.view v = { g.view v with parent, worklist, wakes, revision }) :
    SameRecords v g g' := by
  refine ⟨hversions, ?_, ?_, ?_, ?_⟩ <;> rw [hview]

theorem restrictions_eq (h : SameRecords v g g') : g'.restrictions v = g.restrictions v :=
  restrictions_congr h.versions h.domain h.ceiling

theorem compressPathFrom {fuel : Nat} {ty root : Ty} (hg : g.WF) (hv : v < g.states.length) :
    SameRecords v g (compressPathFrom fuel g v ty root) := by
  induction fuel generalizing g ty with
  | zero => exact refl v g
  | succ fuel ih =>
      simp only [VersionedEGraph.compressPathFrom]
      split
      · exact refl v g
      · have hc : Confined v g (g.setParent v ty root) := Confined.modifyState g v _
        have hs : SameRecords v g (g.setParent v ty root) :=
          of_view rfl (view_setParent hg hv ty root)
        exact hs.trans (ih (hc.wf hg) (hc.length ▸ hv))

end SameRecords

theorem union_versions (g : VersionedEGraph) (v : Version) (left right : Ty) :
    (g.union v left right).2.versions = g.versions := by
  simp only [union]
  split <;> rfl

namespace Represents

variable {g g' : VersionedEGraph} {v : Version} {S : Store}

/-! ### Reading the store -/

section Read

variable (h : Represents g v S)
include h

theorem subst_getParent (t : Ty) : (g.getParent v t).subst S.resolve = t.subst S.resolve := by
  apply Ty.term_injective
  rw [Ty.term_subst, Ty.term_subst]
  exact h.resolves.respects t

theorem subst_find (t : Ty) : (g.find v t).subst S.resolve = t.subst S.resolve := by
  apply Ty.term_injective
  rw [Ty.term_subst, Ty.term_subst]
  exact h.resolves.respects.reaches (find_reaches h.grounded t)

theorem unresolved_of_root {x : InferVarIndex} (hx : g.getParent v (.inferVar x) = .inferVar x) :
    S.Unresolved x := by
  apply Ty.term_injective
  rw [Ty.term_inferVar]
  exact h.resolves.root_var (.inferVar x) x (Ty.term_inferVar x) hx

/-- The representative of a type is a variable exactly when the type resolves to it. -/
theorem find_eq_inferVar {t : Ty} {x : InferVarIndex} :
    g.find v t = .inferVar x ↔ t.subst S.resolve = .inferVar x := by
  have hroot := getParent_find h.grounded t
  constructor
  · intro hf
    rw [hf] at hroot
    rw [← h.subst_find, hf, Ty.subst_inferVar]
    exact h.unresolved_of_root hroot
  · intro hs
    rw [← h.subst_find] at hs
    rcases (g.find v t).rigid_or_var with hr | ⟨y, hy⟩
    · have := Ty.rigid_subst hr S.resolve
      rw [hs] at this
      exact this.elim
    · rw [hy] at hroot hs ⊢
      rw [Ty.subst_inferVar, h.unresolved_of_root hroot] at hs
      exact hs

theorem find_rigid {t : Ty} : (g.find v t).Rigid ↔ (t.subst S.resolve).Rigid := by
  rcases (t.subst S.resolve).rigid_or_var with hr | ⟨x, hx⟩
  · refine iff_of_true ?_ hr
    rcases (g.find v t).rigid_or_var with hf | ⟨x, hx⟩
    · exact hf
    · rw [h.find_eq_inferVar.mp hx] at hr; exact hr.elim
  · rw [hx, h.find_eq_inferVar.mpr hx]

theorem root_of_unresolved {x : InferVarIndex} (hx : S.Unresolved x) :
    g.getParent v (.inferVar x) = .inferVar x := by
  have hf : g.find v (.inferVar x) = .inferVar x :=
    h.find_eq_inferVar.mpr ((Ty.subst_inferVar _ _).trans hx)
  have := getParent_find h.grounded (.inferVar x)
  rwa [hf] at this

/-- The heads of a representative and of the resolved type are the same. -/
theorem decompose_find {t : Ty} (hr : (t.subst S.resolve).Rigid) :
    (decompose (t.subst S.resolve)).skeleton = (decompose (g.find v t)).skeleton ∧
      (decompose (t.subst S.resolve)).children =
        (decompose (g.find v t)).children.map (Ty.subst S.resolve) := by
  rw [← h.subst_find, Ty.decompose_subst (h.find_rigid.mpr hr)]
  exact ⟨rfl, rfl⟩

theorem effectiveDomain_of_var {t : Ty} {x : InferVarIndex}
    (hx : t.subst S.resolve = .inferVar x) :
    g.effectiveDomain v t = some (S.restrictions.domain x) := by
  rw [effectiveDomain_of_root (h.find_eq_inferVar.mpr hx),
    h.domain x (Store.unresolved_of_eq hx)]
  rfl

theorem effectiveDomain_of_rigid {t : Ty} (hr : (t.subst S.resolve).Rigid) :
    g.effectiveDomain v t = none := by
  have hf := h.find_rigid.mpr hr
  simp only [effectiveDomain]
  split
  · rename_i x hx
    rw [hx] at hf; exact hf.elim
  · rfl

/-- A recorded bound has the representative of its variable. -/
theorem find_bound {x : InferVarIndex} {b : Ty} (hb : (g.getBound v (.inferVar x)).ty = some b)
    (hx : S.Unresolved x) : g.find v b = .inferVar x :=
  h.find_eq_inferVar.mpr ((h.bound x b hb).trans hx)

end Read

/-! ### What the recorded constraints allow -/

/-- A solution of everything recorded is a solution of the store. -/
theorem solution_iff (h : Represents g v S) {Γ : Restrictions} {θ : InferVarIndex → Ty} :
    g.Solves v Γ θ ↔ S.Solution g.placeholderUniverse Γ θ := by
  have hroot : ∀ x, S.Unresolved x ↔ g.find v (.inferVar x) = .inferVar x := fun x => by
    rw [h.find_eq_inferVar, Ty.subst_inferVar]; rfl
  have hrespects : (∀ t, (g.getParent v t).subst θ = t.subst θ) ↔
      ∀ x, (S.resolve x).subst θ = θ x := by
    have := h.resolves.respects_iff names_term h.grounded (θ := fun x => (θ x).term)
    simpa only [Resolution.Respects, ← Ty.term_subst, Ty.term_injective.eq_iff] using this
  have hdomain : ∀ x d, S.Unresolved x →
      (g.effectiveDomain v (.inferVar x) = some d ↔ S.restrictions.domain x = d) :=
    fun x d hx => by
      rw [h.effectiveDomain_of_var ((Ty.subst_inferVar _ _).trans hx), Option.some.injEq]
  constructor
  · rintro ⟨hr, -, hd, hu⟩
    refine ⟨hrespects.mp hr, fun x hx => ?_, fun x hx => ?_⟩
    · exact hd x _ ((hroot x).mp hx) ((hdomain x _ hx).mpr rfl)
    · rw [h.ceiling x hx]
      exact hu x ((hroot x).mp hx)
  · rintro ⟨hf, hd, hu⟩
    refine ⟨hrespects.mpr hf, fun x b hb => ?_, fun x d hx he => ?_, fun x hx => ?_⟩
    · have := h.bound x b (by rw [hb]; rfl)
      rw [← hf x, ← this, Ty.subst_subst]
      exact (Ty.subst_congr fun y _ => hf y).symm
    · have hx := (hroot x).mpr hx
      obtain rfl := (hdomain x d hx).mp he
      exact hd x hx
    · have hx := (hroot x).mpr hx
      rw [show g.currentUniverse v x = S.restrictions.ceiling x from (h.ceiling x hx).symm]
      exact hu x hx

/-! ### Writes that keep the resolution -/

section Keep

/-- A version that sees the same pointers, bounds and dependents has the same resolution. -/
theorem of_view {w : Version} (h : Represents g v S) (hwf : g'.WF) (hlt : w < g'.states.length)
    (hparent : (g'.view w).parent = (g.view v).parent)
    (hbound : (g'.view w).bound = (g.view v).bound)
    (hdependents : (g'.view w).dependents = (g.view v).dependents) :
    Represents g' w { S with restrictions := g'.restrictions w } where
  wf := hwf
  lt := hlt
  grounded := by
    rw [show g'.getParent w = g.getParent v from hparent]
    exact h.grounded
  resolves := by
    rw [show g'.getParent w = g.getParent v from hparent]
    exact h.resolves
  domain _ _ := rfl
  ceiling _ _ := rfl
  bound x b hb := h.bound x b (by rwa [← view_bound, hbound] at hb)
  dependents c d hd := h.dependents c d (by rwa [hdependents] at hd)

/-- New pointers that lead to the same resolution. -/
theorem of_parent (h : Represents g v S) (hl : Local v g g') (hs : SameRecords v g g')
    (hresolves : Resolution.Resolves (g'.getParent v) Ty.term fun x => (S.resolve x).term) :
    Represents g' v S where
  wf := hl.wf h.wf
  lt := hl.length ▸ h.lt
  grounded := hl.grounded h.wf h.lt h.grounded
  resolves := hresolves
  domain x hx := by rw [h.domain x hx, hs.restrictions_eq]
  ceiling x hx := by rw [h.ceiling x hx, hs.restrictions_eq]
  bound x b hb := h.bound x b (by rwa [← view_bound, hs.bound] at hb)
  dependents c d hd := h.dependents c d (by rwa [hs.dependents] at hd)

theorem findMut (h : Represents g v S) (t : Ty) : Represents (g.findMut v t).2 v S := by
  refine h.of_parent (Local.findMut g v t) (SameRecords.compressPathFrom h.wf h.lt) ?_
  refine Local.compressPathFrom_induct g v
    (motive := fun p => Resolution.Resolves p Ty.term fun x => (S.resolve x).term)
    (fun p ty hp hty hne => ?_) _ h.wf h.lt (find_reaches h.grounded t) h.resolves
  exact hp.update_of_eq hne (hp.respects.reaches hty)

theorem addDependents (h : Represents g v S) (t : Ty) : Represents (g.addDependents v t) v S := by
  rw [VersionedEGraph.addDependents]
  suffices ∀ children : List Ty, (∀ c ∈ children, c ∈ (decompose t).children) → ∀ g, Represents g v S →
      Represents (children.foldl (fun g child => g.addDependent v child t) g) v S from
    this _ (fun _ => id) g h
  intro children
  induction children with
  | nil => exact fun _ g h => h
  | cons child children ih =>
      rintro hmem g h
      refine ih (fun c hc => hmem c (List.mem_cons_of_mem _ hc)) _ ?_
      have hview := view_addDependent h.wf h.lt child t
      have hc : Confined v g (g.addDependent v child t) := Confined.modifyState g v _
      have hp : (g.addDependent v child t).getParent v = g.getParent v :=
        congrArg View.parent hview
      have hrestrictions : (g.addDependent v child t).restrictions v = g.restrictions v :=
        restrictions_congr rfl (by rw [hview]) (by rw [hview])
      refine ⟨hc.wf h.wf, hc.length ▸ h.lt, hp ▸ h.grounded, hp ▸ h.resolves,
        hrestrictions ▸ h.domain, hrestrictions ▸ h.ceiling, fun x b hb => ?_, fun c d hd => ?_⟩
      · rw [← view_bound, hview] at hb
        exact h.bound x b hb
      · rw [congrArg View.dependents hview] at hd
        by_cases hcc : c = child
        · subst hcc
          simp only [Function.update_self, Set.mem_insert_iff] at hd
          rcases hd with rfl | hd
          · exact hmem c List.mem_cons_self
          · exact h.dependents c d hd
        · exact h.dependents c d (by simpa [hcc] using hd)

/-- A union of types that resolve alike to a rigid type. -/
theorem union_of_eq (h : Represents g v S) {left right : Ty}
    (hr : (left.subst S.resolve).Rigid) (heq : left.subst S.resolve = right.subst S.resolve) :
    Represents (g.union v left right).2 v S := by
  by_cases hne : g.find v left = g.find v right
  · rw [VersionedEGraph.union_of_eq hne]; exact h
  have hview := view_union h.wf h.lt hne
  have hedge : unionEdge (g.find v left) (g.find v right) = (g.find v right, g.find v left) := by
    have := h.find_rigid.mpr hr
    cases hf : g.find v left <;> first | rfl | (rw [hf] at this; exact this.elim)
  rw [hedge] at hview
  refine h.of_parent (Local.union g v left right) (SameRecords.of_view (union_versions ..) hview) ?_
  rw [show (g.union v left right).2.getParent v = _ from congrArg View.parent hview]
  refine h.resolves.update_of_eq hne ?_
  rw [← Ty.term_subst, ← Ty.term_subst, h.subst_find, h.subst_find, heq]

end Keep

end Represents

end VersionedEGraph

end Sage
