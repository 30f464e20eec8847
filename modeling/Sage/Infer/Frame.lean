import Sage.Infer.Unify

/-!
# Inference — mutations stay in their version

Every mutation of `egraph.rs` and `unify.rs` writes to the version it names and to nothing
else: it is `Local` there.  The lemmas follow the definitions, one for each function, up to
`unifyInProbe` and `rebuild`; what an operation reports, `ok` or an error, plays no part.
-/

namespace Sage

open Loop

namespace VersionedEGraph

namespace Local

variable (g : VersionedEGraph) (v : Version)

theorem markSemanticChange (wake : Option InferVarIndex) :
    Local v g (g.markSemanticChange v wake) :=
  modifyState g v _ rfl

theorem compressPathFrom_confined (fuel : Nat) (ty root : Ty) :
    Confined v g (compressPathFrom fuel g v ty root) := by
  induction fuel generalizing g ty with
  | zero => exact Confined.refl v g
  | succ fuel ih =>
      simp only [VersionedEGraph.compressPathFrom]
      split
      · exact Confined.refl v g
      · exact (Confined.modifyState g v _).trans (ih _ _)

/-- What path compression does to the pointers of `v`: it points elements at their root, one
after the other. -/
theorem compressPathFrom_induct {motive : (Ty → Ty) → Prop} {root : Ty}
    (step : ∀ (p : Ty → Ty) ty, motive p → Chase.Reaches p ty root → root ≠ ty →
      motive (Function.update p ty root)) (fuel : Nat) (hg : g.WF) (hv : v < g.states.length)
    {ty : Ty} (hty : Chase.Reaches (g.getParent v) ty root) (h : motive (g.getParent v)) :
    motive ((compressPathFrom fuel g v ty root).getParent v) := by
  induction fuel generalizing g ty with
  | zero => exact h
  | succ fuel ih =>
      simp only [VersionedEGraph.compressPathFrom]
      split
      · exact h
      · rename_i hne
        rw [not_or] at hne
        have hrt : root ≠ ty := by
          rintro rfl; exact hne.1 hty.is_root
        have hset := getParent_setParent hg hv ty root
        have hc : Confined v g (g.setParent v ty root) := Confined.modifyState g v _
        refine ih _ (hc.wf hg) (hc.length ▸ hv) ?_ ?_
        · rw [hset]
          exact Chase.reaches_update_self hty hrt (Chase.reaches_parent.mpr hty)
        · rw [hset]
          exact step _ ty h hty hrt

theorem findMut (ty : Ty) : Local v g (g.findMut v ty).2 where
  toConfined := compressPathFrom_confined g v _ _ _
  grounded hg hv hp :=
    compressPathFrom_induct g v (fun _ _ hp hty hne => Chase.grounded_update hp hty.is_root hne)
      _ hg hv (find_reaches hp ty) hp

theorem lowerUniverse (index : InferVarIndex) (ceiling : Universe) :
    Local v g (g.lowerUniverse v index ceiling) := by
  rw [VersionedEGraph.lowerUniverse]
  split
  · exact refl v g
  · exact (modifyState g v _ rfl).trans (markSemanticChange _ v _)

theorem setDomainIn (ty : Ty) (domain : InferDomain) : Local v g (g.setDomainIn v ty domain) := by
  simp only [VersionedEGraph.setDomainIn]
  split
  · split
    · exact refl v g
    · exact (modifyState g v _ rfl).trans (markSemanticChange _ v _)
  · exact refl v g

theorem setBoundIn (ty : Ty) (bound : Bound) : Local v g (g.setBoundIn v ty bound) := by
  cases ty with
  | inferVar index =>
      rw [VersionedEGraph.setBoundIn]
      split
      · exact refl v g
      · exact (modifyState g v _ rfl).trans (markSemanticChange _ v _)
  | _ => exact refl v g

theorem union (left right : Ty) : Local v g (g.union v left right).2 := by
  simp only [VersionedEGraph.union]
  split
  · exact refl v g
  · rename_i hne
    refine (Local.trans (setParent ?_) (modifyState _ v _ rfl)).trans (markSemanticChange _ v _)
    intro hp
    simp only [unionEdge]
    split
    · exact ⟨getParent_find hp right, fun e => hne e.symm⟩
    · exact ⟨getParent_find hp left, hne⟩

theorem addDependents (ty : Ty) : Local v g (g.addDependents v ty) := by
  rw [VersionedEGraph.addDependents]
  generalize (decompose ty).children = children
  induction children generalizing g with
  | nil => exact refl v g
  | cons child children ih =>
      exact (modifyState g v _ rfl).trans (ih (g.addDependent v child ty))

/-! ### Congruence closure -/

section Rebuild

variable [HashOrder]

omit [HashOrder] in
theorem rebuildDependent (acc : VersionedEGraph × List Ty) (dependent : Ty) :
    Local v acc.1 (rebuildDependent v acc dependent).1 := by
  obtain ⟨g, changed⟩ := acc
  simp only [VersionedEGraph.rebuildDependent]
  split
  · exact refl v g
  · rename_i newTy _
    split
    · exact refl v g
    · rename_i hne
      refine Local.trans (setParent fun hp => ⟨getParent_find hp newTy, ?_⟩)
        (modifyState _ v _ rfl)
      -- a dependent that is the new representative would be its own, which is no change
      intro e
      exact hne ((find_of_root (e ▸ getParent_find hp newTy)).trans e.symm).symm

omit [HashOrder] in
theorem foldl_of_local {α β : Type} {f : VersionedEGraph × β → α → VersionedEGraph × β}
    (hf : ∀ acc a, Local v acc.1 (f acc a).1) (as : List α) (acc : VersionedEGraph × β) :
    Local v acc.1 (as.foldl f acc).1 := by
  induction as generalizing acc with
  | nil => exact refl v acc.1
  | cons a as ih => exact (hf acc a).trans (ih _)

theorem rebuildMerged (acc : VersionedEGraph × List Ty) (merged : Ty) :
    Local v acc.1 (rebuildMerged v acc merged).1 :=
  foldl_of_local v (rebuildDependent v) _ acc

theorem rebuildFrom {fuel : Nat} {acc : VersionedEGraph × List Ty} {changed : List Ty}
    {g' : VersionedEGraph} (h : rebuildFrom fuel v acc = some (changed, g')) :
    Local v acc.1 g' := by
  induction fuel generalizing acc with
  | zero => cases h
  | succ fuel ih =>
      obtain ⟨g, changed'⟩ := acc
      simp only [VersionedEGraph.rebuildFrom] at h
      split at h
      · obtain ⟨-, rfl⟩ := Prod.mk.inj (Option.some.inj h)
        exact modifyState g v _ rfl
      · exact (modifyState g v _ rfl).trans ((foldl_of_local v (rebuildMerged v) _ _).trans (ih h))

theorem rebuild {fuel : Nat} {g : VersionedEGraph} {changed : List Ty} {g' : VersionedEGraph}
    (h : g.rebuild fuel v = some (changed, g')) : Local v g g' :=
  rebuildFrom v h

end Rebuild

/-! ### Unification -/

variable {v}

theorem accessHead {outerVariable ceiling} {recurse : Ty → List Ty × VersionedEGraph →
      Outcome UnifyError (List Ty × VersionedEGraph) Unit}
    (ih : ∀ ty s r t, recurse ty s = some (r, t) → Local v s.2 t.2) {ty : Ty}
    {s t : List Ty × VersionedEGraph} {r : Except UnifyError Unit}
    (h : accessHead v outerVariable ceiling recurse ty s = some (r, t)) : Local v s.2 t.2 := by
  obtain ⟨visited, g⟩ := s
  cases ty with
  | inferVar variable_ =>
      simp only [VersionedEGraph.accessHead] at h
      have hlower := lowerUniverse g v variable_ ceiling
      split at h
      · exact hlower.trans (ih _ _ _ _ h)
      · obtain ⟨-, rfl⟩ := Prod.mk.inj (Option.some.inj h)
        exact hlower
  | _ =>
      simp only [VersionedEGraph.accessHead] at h
      split at h
      · split at h <;> obtain ⟨-, rfl⟩ := Prod.mk.inj (Option.some.inj h) <;> exact refl v g
      · obtain ⟨-, rfl⟩ := Prod.mk.inj (Option.some.inj h)
        exact refl v g

theorem makeAccessible {outerVariable ceiling} (fuel : Nat) :
    ∀ (ty : Ty) (s : List Ty × VersionedEGraph) (r : Except UnifyError Unit)
      (t : List Ty × VersionedEGraph),
      makeAccessible v outerVariable ceiling fuel ty s = some (r, t) → Local v s.2 t.2 := by
  induction fuel with
  | zero => intro ty s r t h; cases h
  | succ fuel ih =>
      rintro ty ⟨visited, g⟩ r t h
      simp only [VersionedEGraph.makeAccessible] at h
      split at h
      · obtain ⟨-, rfl⟩ := Prod.mk.inj (Option.some.inj h)
        exact refl v g
      · refine andThen_invariant (R := fun s t => Local v s.2 t.2) trans
          (s := (g.find v ty :: visited, g)) (fun _ _ hh => accessHead ih hh) ?_ h
        intro _ s' r' t' _ hloop
        exact forEach_invariant (R := fun s t => Local v s.2 t.2) (fun s => refl v s.2) trans
          (fun a _ s r t => ih a s r t) hloop

theorem bindVariable {fuel : Nat} {g : VersionedEGraph} {variableTy value : Ty}
    {variable_ : InferVarIndex} {r : Except UnifyError Unit} {g' : VersionedEGraph}
    (h : g.bindVariable fuel v variableTy variable_ value = some (r, g')) : Local v g g' := by
  simp only [VersionedEGraph.bindVariable] at h
  split at h
  · cases h
  · obtain ⟨-, rfl⟩ := Prod.mk.inj (Option.some.inj h)
    exact refl v g
  · split at h
    · cases h
    · rename_i hacc
      obtain ⟨-, rfl⟩ := Prod.mk.inj (Option.some.inj h)
      exact makeAccessible _ _ _ _ _ hacc
    · rename_i hacc
      obtain ⟨-, rfl⟩ := Prod.mk.inj (Option.some.inj h)
      exact (makeAccessible _ _ _ _ _ hacc).trans
        ((setBoundIn _ v _ _).trans (union _ v _ _))

theorem unifyVariables {g g' : VersionedEGraph} {left right : Ty} {x y : InferVarIndex}
    {r : Except UnifyError Unit} (h : g.unifyVariables v left right x y = some (r, g')) :
    Local v g g' := by
  simp only [VersionedEGraph.unifyVariables] at h
  split at h
  · obtain ⟨-, rfl⟩ := Prod.mk.inj (Option.some.inj h)
    exact refl v g
  · obtain ⟨-, rfl⟩ := Prod.mk.inj (Option.some.inj h)
    exact (((lowerUniverse g v _ _).trans (lowerUniverse _ v _ _)).trans
      (union _ v _ _)).trans (setDomainIn _ v _ _)

section Recurse

variable {recurse : Ty → Ty → VersionedEGraph → Outcome UnifyError VersionedEGraph Unit}
  (ih : ∀ {left right : Ty} {g g' : VersionedEGraph} {r : Except UnifyError Unit},
    recurse left right g = some (r, g') → Local v g g')
include ih

theorem unifyRigid {g g' : VersionedEGraph} {left right : Ty} {r : Except UnifyError Unit}
    (h : g.unifyRigid recurse v left right = some (r, g')) : Local v g g' := by
  simp only [VersionedEGraph.unifyRigid] at h
  split at h
  · obtain ⟨-, rfl⟩ := Prod.mk.inj (Option.some.inj h)
    exact refl v g
  · refine ((addDependents g v left).trans (addDependents _ v right)).trans ?_
    refine andThen_invariant (R := Local v) trans (fun _ _ hloop => ?_)
      (fun _ _ _ _ _ hu => ?_) h
    · exact forEach_invariant (refl v) trans (fun _ _ _ _ _ hp => ih hp) hloop
    · obtain ⟨-, rfl⟩ := Prod.mk.inj (Option.some.inj hu)
      exact union _ v _ _

theorem unifyRoots {fuel : Nat} {g g' : VersionedEGraph} {left right : Ty}
    {r : Except UnifyError Unit} (h : g.unifyRoots fuel recurse v left right = some (r, g')) :
    Local v g g' := by
  simp only [VersionedEGraph.unifyRoots] at h
  split at h
  · obtain ⟨-, rfl⟩ := Prod.mk.inj (Option.some.inj h)
    exact refl v g
  · split at h
    · obtain ⟨-, rfl⟩ := Prod.mk.inj (Option.some.inj h)
      exact refl v g
    · obtain ⟨-, rfl⟩ := Prod.mk.inj (Option.some.inj h)
      exact refl v g
    · exact unifyVariables h
    · split at h
      · obtain ⟨-, rfl⟩ := Prod.mk.inj (Option.some.inj h)
        exact refl v g
      · exact bindVariable h
    · split at h
      · obtain ⟨-, rfl⟩ := Prod.mk.inj (Option.some.inj h)
        exact refl v g
      · exact bindVariable h
    · exact unifyRigid ih h

end Recurse

/-- Unification in a probe writes to the probe's version only, whether it succeeds or not. -/
theorem unifyInProbe (fuel : Nat) : ∀ {left right : Ty} {g g' : VersionedEGraph}
    {r : Except UnifyError Unit}, unifyInProbe fuel v left right g = some (r, g') →
      Local v g g' := by
  induction fuel with
  | zero => intro left right g g' r h; cases h
  | succ fuel ih =>
      intro left right g g' r h
      have hfind : Local v g ((g.findMut v left).2.findMut v right).2 :=
        (findMut g v left).trans (findMut _ v right)
      rw [VersionedEGraph.unifyInProbe] at h
      exact hfind.trans (unifyRoots ih h)

end Local

end VersionedEGraph

end Sage
