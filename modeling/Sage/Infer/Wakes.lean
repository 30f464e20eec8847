import Sage.Infer.Probe

/-!
# Inference — what a version announces

A version lists the variables whose waiters its changes wake, and counts its semantic changes.
Path compression, the dependents and the congruence pointers of a rebuild count for neither: they
change no representative of a variable.

* `View.Announced` — a variable without a wake has the representative, the bound, the domain and
  the ceiling it had.
* `View.Tracked` — an unchanged revision means that nothing changed at all.
* `Writes` — a relation every primitive write keeps is kept by unification.
* `Tracks` — a change of one version that announces what it does; every operation is one.
-/

namespace Sage

open Loop

/-! ### Announced changes of a view -/

namespace View

variable {known known' : Set InferVarIndex} {a b c : View}

/-- The wakes grow, and a known variable without a wake is what it was. -/
structure Announced (known : Set InferVarIndex) (a b : View) : Prop where
  wakes : a.wakes ⊆ b.wakes
  root : ∀ i ∉ b.wakes, a.parent (.inferVar i) = .inferVar i →
    b.parent (.inferVar i) = .inferVar i
  bound : ∀ i ∉ b.wakes, b.bound (.inferVar i) = a.bound (.inferVar i)
  domain : ∀ i ∉ b.wakes, b.domain (.inferVar i) = a.domain (.inferVar i)
  ceiling : ∀ i ∈ known, i ∉ b.wakes → b.ceiling i = a.ceiling i

/-- Nothing changed that a reader of the version can tell; nothing is pending. -/
structure Quiet (known : Set InferVarIndex) (a b : View) : Prop where
  representative : ∀ t r, Chase.Reaches a.parent t r → Chase.Reaches b.parent t r
  bound : b.bound = a.bound
  domain : b.domain = a.domain
  ceiling : ∀ i ∈ known, b.ceiling i = a.ceiling i
  worklist : b.worklist = []
  wakes : b.wakes = a.wakes

/-- Announced changes, counted: no count and nothing pending before means no change. -/
structure Tracked (known : Set InferVarIndex) (a b : View) : Prop extends Announced known a b where
  revision : ∃ k : Nat, b.revision = a.revision + UInt64.ofNat k ∧
    (k = 0 → a.worklist = [] → Quiet known a b)

/-- Announced changes leave the pointers and the records of variables alone. -/
theorem Announced.of_eq (hp : ∀ i, b.parent (.inferVar i) = a.parent (.inferVar i))
    (hb : b.bound = a.bound) (hd : b.domain = a.domain) (hc : b.ceiling = a.ceiling)
    (hw : b.wakes = a.wakes) : Announced known a b where
  wakes := by rw [hw]
  root i _ ha := by rw [hp, ha]
  bound i _ := by rw [hb]
  domain i _ := by rw [hd]
  ceiling i _ _ := by rw [hc]

theorem Announced.refl (known : Set InferVarIndex) (a : View) : Announced known a a :=
  .of_eq (fun _ => rfl) rfl rfl rfl rfl

theorem Announced.trans (h : Announced known a b) (h' : Announced known' b c)
    (hk : known ⊆ known') : Announced known a c where
  wakes _ hi := h'.wakes (h.wakes hi)
  root i hi ha := h'.root i hi (h.root i (fun hb => hi (h'.wakes hb)) ha)
  bound i hi := (h'.bound i hi).trans (h.bound i fun hb => hi (h'.wakes hb))
  domain i hi := (h'.domain i hi).trans (h.domain i fun hb => hi (h'.wakes hb))
  ceiling i hn hi := (h'.ceiling i (hk hn) hi).trans (h.ceiling i hn fun hb => hi (h'.wakes hb))

theorem Quiet.trans (h : Quiet known a b) (h' : Quiet known' b c) (hk : known ⊆ known') :
    Quiet known a c where
  representative t r hr := h'.representative t r (h.representative t r hr)
  bound := h'.bound.trans h.bound
  domain := h'.domain.trans h.domain
  ceiling i hn := (h'.ceiling i (hk hn)).trans (h.ceiling i hn)
  worklist := h'.worklist
  wakes := h'.wakes.trans h.wakes

/-- A change that is announced and counted. -/
theorem Announced.marked (h : Announced known a b) (hr : b.revision = a.revision + 1) :
    Tracked known a b :=
  ⟨h, 1, hr, fun h => by cases h⟩

/-- A change that is not counted, as there is none. -/
theorem Quiet.tracked (h : a.worklist = [] → Quiet known a b) (ha : Announced known a b)
    (hr : b.revision = a.revision) : Tracked known a b :=
  ⟨ha, 0, by rw [hr]; simp, fun _ => h⟩

theorem Tracked.refl (known : Set InferVarIndex) (a : View) : Tracked known a a :=
  Quiet.tracked (fun h => ⟨fun _ _ => id, rfl, rfl, fun _ _ => rfl, h, rfl⟩) (.refl known a) rfl

theorem Tracked.trans (h : Tracked known a b) (h' : Tracked known' b c) (hk : known ⊆ known') :
    Tracked known a c := by
  obtain ⟨m, hm, hquiet⟩ := h.revision
  obtain ⟨n, hn, hquiet'⟩ := h'.revision
  refine ⟨h.toAnnounced.trans h'.toAnnounced hk, m + n, ?_, fun hzero hpending => ?_⟩
  · rw [hn, hm, UInt64.ofNat_add, UInt64.add_assoc]
  · have hq := hquiet (Nat.eq_zero_of_add_eq_zero_right hzero) hpending
    exact hq.trans (hquiet' (Nat.eq_zero_of_add_eq_zero_left hzero) hq.worklist) hk

/-- What a new child sees: everything, and nothing of its own. -/
def opened (a : View) : View := { a with worklist := [], wakes := ∅ }

/-- What the parent of a collapsed child sees. -/
def collapsed (b c : View) : View :=
  { c with worklist := b.worklist ++ c.worklist, wakes := b.wakes ∪ c.wakes }

/-- A child's account extends its parent's. -/
theorem Tracked.collapsed (h : Tracked known a.opened b) (h' : Tracked known' b.opened c)
    (hk : known ⊆ known') : Tracked known a.opened (b.collapsed c) := by
  obtain ⟨m, hm, hquiet⟩ := h.revision
  obtain ⟨n, hn, hquiet'⟩ := h'.revision
  have hb : ∀ {i}, i ∉ (b.collapsed c).wakes → i ∉ b.wakes := fun hi hb => hi (.inl hb)
  have hc : ∀ {i}, i ∉ (b.collapsed c).wakes → i ∉ c.wakes := fun hi hc => hi (.inr hc)
  refine ⟨⟨Set.empty_subset _, fun i hi ha => ?_, fun i hi => ?_, fun i hi => ?_,
    fun i hn hi => ?_⟩, m + n, ?_, fun hzero _ => ?_⟩
  · exact h'.root i (hc hi) (h.root i (hb hi) ha)
  · exact (h'.bound i (hc hi)).trans (h.bound i (hb hi))
  · exact (h'.domain i (hc hi)).trans (h.domain i (hb hi))
  · exact (h'.ceiling i (hk hn) (hc hi)).trans (h.ceiling i hn (hb hi))
  · exact hn.trans (by rw [opened, hm, UInt64.ofNat_add, UInt64.add_assoc])
  · have hq := hquiet (Nat.eq_zero_of_add_eq_zero_right hzero) rfl
    have hq' := hquiet' (Nat.eq_zero_of_add_eq_zero_left hzero) rfl
    refine ⟨fun t r hr => hq'.representative t r (hq.representative t r hr),
      hq'.bound.trans hq.bound, hq'.domain.trans hq.domain,
      fun i hn => (hq'.ceiling i (hk hn)).trans (hq.ceiling i hn), ?_, ?_⟩
    · rw [View.collapsed, hq.worklist, hq'.worklist, List.append_nil]
    · rw [View.collapsed, hq.wakes, hq'.wakes]
      exact Set.union_self _

end View

namespace VersionedEGraph

variable {g g' g'' : VersionedEGraph} {v : Version}

/-! ### Primitive writes -/

/-- A transitive relation that every primitive write of unification in `v` keeps. -/
structure Writes (v : Version) (R : VersionedEGraph → VersionedEGraph → Prop) : Prop where
  refl : ∀ g, R g g
  trans : ∀ {g g' g''}, R g g' → R g' g'' → R g g''
  findMut : ∀ g ty, R g (g.findMut v ty).2
  lowerUniverse : ∀ g index ceiling, R g (g.lowerUniverse v index ceiling)
  setDomainIn : ∀ g ty domain, R g (g.setDomainIn v ty domain)
  setBoundIn : ∀ g ty bound, R g (g.setBoundIn v ty bound)
  union : ∀ g left right, R g (g.union v left right).2
  addDependent : ∀ g argTy parentTy, R g (g.addDependent v argTy parentTy)

namespace Writes

variable {R : VersionedEGraph → VersionedEGraph → Prop} (h : Writes v R)
include h

theorem addDependents (g : VersionedEGraph) (ty : Ty) : R g (g.addDependents v ty) := by
  rw [VersionedEGraph.addDependents]
  generalize (decompose ty).children = children
  induction children generalizing g with
  | nil => exact h.refl g
  | cons child children ih => exact h.trans (h.addDependent g child ty) (ih _)

theorem accessHead {outerVariable ceiling} {recurse : Ty → List Ty × VersionedEGraph →
      Outcome UnifyError (List Ty × VersionedEGraph) Unit}
    (ih : ∀ ty s r t, recurse ty s = some (r, t) → R s.2 t.2) {ty : Ty}
    {s t : List Ty × VersionedEGraph} {r : Except UnifyError Unit}
    (hrun : VersionedEGraph.accessHead v outerVariable ceiling recurse ty s = some (r, t)) :
    R s.2 t.2 := by
  obtain ⟨visited, g⟩ := s
  rcases ty.rigid_or_var with hr | ⟨x, rfl⟩
  · -- a rigid head is checked only
    have hsame : t.2 = g := by
      cases ty <;> simp only [VersionedEGraph.accessHead] at hrun <;>
        first
        | exact hr.elim
        | (split at hrun
           · split at hrun <;> obtain ⟨-, rfl⟩ := Prod.mk.inj (Option.some.inj hrun) <;> rfl
           · obtain ⟨-, rfl⟩ := Prod.mk.inj (Option.some.inj hrun)
             rfl)
    rw [hsame]
    exact h.refl g
  · simp only [VersionedEGraph.accessHead] at hrun
    have hlower := h.lowerUniverse g x ceiling
    split at hrun
    · exact h.trans hlower (ih _ _ _ _ hrun)
    · obtain ⟨-, rfl⟩ := Prod.mk.inj (Option.some.inj hrun)
      exact hlower

theorem makeAccessible {outerVariable ceiling} (fuel : Nat) :
    ∀ (ty : Ty) (s : List Ty × VersionedEGraph) (r : Except UnifyError Unit)
      (t : List Ty × VersionedEGraph),
      VersionedEGraph.makeAccessible v outerVariable ceiling fuel ty s = some (r, t) →
        R s.2 t.2 := by
  induction fuel with
  | zero => intro ty s r t hrun; cases hrun
  | succ fuel ih =>
      rintro ty ⟨visited, g⟩ r t hrun
      simp only [VersionedEGraph.makeAccessible] at hrun
      split at hrun
      · obtain ⟨-, rfl⟩ := Prod.mk.inj (Option.some.inj hrun)
        exact h.refl g
      · refine andThen_invariant (R := fun s t => R s.2 t.2) h.trans
          (s := (g.find v ty :: visited, g)) (fun _ _ hh => h.accessHead ih hh) ?_ hrun
        intro _ s' r' t' _ hloop
        exact forEach_invariant (R := fun s t => R s.2 t.2) (fun s => h.refl s.2) h.trans
          (fun a _ s r t => ih a s r t) hloop

theorem bindVariable {fuel : Nat} {variableTy value : Ty} {variable_ : InferVarIndex}
    {r : Except UnifyError Unit}
    (hrun : g.bindVariable fuel v variableTy variable_ value = some (r, g')) : R g g' := by
  simp only [VersionedEGraph.bindVariable] at hrun
  split at hrun
  · cases hrun
  · obtain ⟨-, rfl⟩ := Prod.mk.inj (Option.some.inj hrun)
    exact h.refl g
  split at hrun
  · cases hrun
  · rename_i hacc
    obtain ⟨-, rfl⟩ := Prod.mk.inj (Option.some.inj hrun)
    exact h.makeAccessible _ _ _ _ _ hacc
  · rename_i hacc
    obtain ⟨-, rfl⟩ := Prod.mk.inj (Option.some.inj hrun)
    exact h.trans (h.makeAccessible _ _ _ _ _ hacc) (h.trans (h.setBoundIn _ _ _) (h.union _ _ _))

theorem unifyVariables {left right : Ty} {x y : InferVarIndex} {r : Except UnifyError Unit}
    (hrun : g.unifyVariables v left right x y = some (r, g')) : R g g' := by
  simp only [VersionedEGraph.unifyVariables] at hrun
  split at hrun
  · obtain ⟨-, rfl⟩ := Prod.mk.inj (Option.some.inj hrun)
    exact h.refl g
  · obtain ⟨-, rfl⟩ := Prod.mk.inj (Option.some.inj hrun)
    exact h.trans (h.lowerUniverse g _ _)
      (h.trans (h.lowerUniverse _ _ _) (h.trans (h.union _ _ _) (h.setDomainIn _ _ _)))

section Recurse

variable {recurse : Ty → Ty → VersionedEGraph → Outcome UnifyError VersionedEGraph Unit}
  (ih : ∀ {left right : Ty} {g g' : VersionedEGraph} {r : Except UnifyError Unit},
    recurse left right g = some (r, g') → R g g')
include ih

theorem unifyRigid {left right : Ty} {r : Except UnifyError Unit}
    (hrun : g.unifyRigid recurse v left right = some (r, g')) : R g g' := by
  simp only [VersionedEGraph.unifyRigid] at hrun
  split at hrun
  · obtain ⟨-, rfl⟩ := Prod.mk.inj (Option.some.inj hrun)
    exact h.refl g
  · refine h.trans (h.trans (h.addDependents g left) (h.addDependents _ right)) ?_
    refine andThen_invariant (R := R) h.trans (fun _ _ hloop => ?_) (fun _ _ _ _ _ hu => ?_) hrun
    · exact forEach_invariant h.refl h.trans (fun _ _ _ _ _ hp => ih hp) hloop
    · obtain ⟨-, rfl⟩ := Prod.mk.inj (Option.some.inj hu)
      exact h.union _ _ _

theorem unifyRoots {fuel : Nat} {left right : Ty} {r : Except UnifyError Unit}
    (hrun : g.unifyRoots fuel recurse v left right = some (r, g')) : R g g' := by
  simp only [VersionedEGraph.unifyRoots] at hrun
  split at hrun
  · obtain ⟨-, rfl⟩ := Prod.mk.inj (Option.some.inj hrun)
    exact h.refl _
  split at hrun
  · obtain ⟨-, rfl⟩ := Prod.mk.inj (Option.some.inj hrun)
    exact h.refl _
  · obtain ⟨-, rfl⟩ := Prod.mk.inj (Option.some.inj hrun)
    exact h.refl _
  · exact h.unifyVariables hrun
  · split at hrun
    · obtain ⟨-, rfl⟩ := Prod.mk.inj (Option.some.inj hrun)
      exact h.refl _
    · exact h.bindVariable hrun
  · split at hrun
    · obtain ⟨-, rfl⟩ := Prod.mk.inj (Option.some.inj hrun)
      exact h.refl _
    · exact h.bindVariable hrun
  · exact h.unifyRigid ih hrun

end Recurse

/-- A relation that the writes keep is kept by unification, whether it succeeds or not. -/
theorem unifyInProbe (fuel : Nat) : ∀ {left right : Ty} {g g' : VersionedEGraph}
    {r : Except UnifyError Unit}, VersionedEGraph.unifyInProbe fuel v left right g = some (r, g') →
      R g g' := by
  induction fuel with
  | zero => intro left right g g' r hrun; cases hrun
  | succ fuel ih =>
      intro left right g g' r hrun
      rw [VersionedEGraph.unifyInProbe] at hrun
      exact h.trans (h.trans (h.findMut g left) (h.findMut _ right)) (h.unifyRoots ih hrun)

/-- What `trySetBound` does with an unresolved variable on the probe. -/
theorem setBound {fuel : Nat} {x : InferVarIndex} {bound : Bound} {r : Except UnifyError Unit}
    (hrun : andThen
      (match bound with
        | .none => some (.ok (), g)
        | .atLeast boundTy =>
            match VersionedEGraph.makeAccessible v x (g.currentUniverse v x) fuel boundTy
              ([], g) with
            | none => none
            | some (r, (_, g)) => some (r, g)
        | .exactly boundTy => VersionedEGraph.unifyInProbe fuel v (.inferVar x) boundTy g)
      (fun _ g => some (.ok (), g.setBoundIn v (.inferVar x) bound)) = some (r, g')) :
    R g g' := by
  refine andThen_invariant (R := R) h.trans (fun r g₁ hb => ?_) (fun _ g₁ r g₂ _ hb => ?_) hrun
  · cases bound with
    | none =>
        simp only [Option.some.injEq, Prod.mk.injEq] at hb
        exact hb.2 ▸ h.refl g
    | atLeast t =>
        simp only at hb
        split at hb
        · cases hb
        · rename_i hacc
          simp only [Option.some.injEq, Prod.mk.injEq] at hb
          exact hb.2 ▸ h.makeAccessible _ _ _ _ _ hacc
    | exactly t => exact h.unifyInProbe _ hb
  · simp only [Option.some.injEq, Prod.mk.injEq] at hb
    exact hb.2 ▸ h.setBoundIn g₁ _ _

end Writes

/-! ### Every operation announces what it does -/

/-- A change allocates variables and forgets none. -/
theorem Confined.known_subset (h : Confined v g g') :
    {i : InferVarIndex | i < g.versions.varInfos.length} ⊆
      {i : InferVarIndex | i < g'.versions.varInfos.length} := by
  obtain ⟨infos, hinfos, -⟩ := h.varInfos
  intro i hi
  change i < g'.versions.varInfos.length
  rw [hinfos, List.length_append]
  exact Nat.lt_of_lt_of_le hi (Nat.le_add_right _ _)

/-- A change of version `v` that its wakes and its revision account for. -/
structure Tracks (v : Version) (g g' : VersionedEGraph) : Prop extends Local v g g' where
  tracked : g.WF → v < g.states.length → Chase.Grounded (g.getParent v) →
    View.Tracked {i | i < g.versions.varInfos.length} (g.view v) (g'.view v)

namespace Tracks

theorem refl (v : Version) (g : VersionedEGraph) : Tracks v g g :=
  ⟨Local.refl v g, fun _ _ _ => .refl _ _⟩

theorem trans (h : Tracks v g g') (h' : Tracks v g' g'') : Tracks v g g'' where
  toLocal := h.toLocal.trans h'.toLocal
  tracked hg hv hp := (h.tracked hg hv hp).trans
    (h'.tracked (h.wf hg) (h.length ▸ hv) (h.grounded hg hv hp)) h.toConfined.known_subset

variable (g v)

/-- Path compression moves pointers only. -/
theorem view_compressPathFrom {fuel : Nat} (hg : g.WF) (hv : v < g.states.length) {ty root : Ty} :
    (compressPathFrom fuel g v ty root).view v =
      { g.view v with parent := (compressPathFrom fuel g v ty root).getParent v } := by
  induction fuel generalizing g ty with
  | zero => rfl
  | succ fuel ih =>
      simp only [compressPathFrom]
      split
      · rfl
      · have hc : Confined v g (g.setParent v ty root) := Confined.modifyState g v _
        rw [ih _ (hc.wf hg) (hc.length ▸ hv), view_setParent hg hv]

theorem findMut (ty : Ty) : Tracks v g (g.findMut v ty).2 where
  toLocal := Local.findMut g v ty
  tracked hg hv hp := by
    have hreach := find_reaches hp ty
    -- a representative stays one, and every type keeps its own
    have hroot : ∀ t, g.getParent v t = t → (g.findMut v ty).2.getParent v t = t := by
      refine Local.compressPathFrom_induct g v
        (motive := fun p => ∀ t, g.getParent v t = t → p t = t) ?_ _ hg hv hreach fun _ => id
      intro p t hp' ht hne u hu
      by_cases hut : u = t
      · subst hut
        exact absurd ((Chase.reaches_root_iff (hp' u hu)).mp ht) hne
      · rw [Function.update_of_ne hut]
        exact hp' u hu
    have hkept : ∀ t r, Chase.Reaches (g.getParent v) t r →
        Chase.Reaches ((g.findMut v ty).2.getParent v) t r :=
      Local.compressPathFrom_induct g v
        (motive := fun p => ∀ a r, Chase.Reaches (g.getParent v) a r → Chase.Reaches p a r)
        (fun p t hp ht hne a r har => Chase.reaches_update_self ht hne (hp a r har)) _ hg hv
        hreach fun _ _ => id
    have hview : (compressPathFrom (g.chainBound v) g v ty (g.find v ty)).view v = _ :=
      view_compressPathFrom g v hg hv
    change (g.findMut v ty).2.view v = _ at hview
    rw [hview]
    refine View.Quiet.tracked (fun hpending => ?_) ?_ rfl
    · exact ⟨hkept, rfl, rfl, fun _ _ => rfl, hpending, rfl⟩
    · exact ⟨fun _ => id, fun i _ hi => hroot _ hi, fun _ _ => rfl, fun _ _ => rfl,
        fun _ _ _ => rfl⟩

theorem lowerUniverse (index : InferVarIndex) (ceiling : Universe) :
    Tracks v g (g.lowerUniverse v index ceiling) where
  toLocal := Local.lowerUniverse g v index ceiling
  tracked hg hv _ := by
    rw [view_lowerUniverse hg hv]
    split
    · exact .refl _ _
    · refine View.Announced.marked ⟨fun _ => Or.inl, fun _ _ => id, fun _ _ => rfl,
        fun _ _ => rfl, fun i _ hi => ?_⟩ rfl
      have hne : i ≠ index := fun e => hi (.inr e)
      simp [hne]

theorem setDomainIn (ty : Ty) (domain : InferDomain) :
    Tracks v g (g.setDomainIn v ty domain) where
  toLocal := Local.setDomainIn g v ty domain
  tracked hg hv _ := by
    rcases (g.find v ty).rigid_or_var with hr | ⟨x, hx⟩
    · have hsame : g.setDomainIn v ty domain = g := by
        rw [VersionedEGraph.setDomainIn]
        cases hf : g.find v ty <;> first | rfl | (rw [hf] at hr; exact hr.elim)
      rw [hsame]
      exact .refl _ _
    · rw [view_setDomainIn hg hv ty hx]
      split
      · exact .refl _ _
      · refine View.Announced.marked ⟨fun _ => Or.inl, fun _ _ => id, fun _ _ => rfl,
          fun i hi => ?_, fun _ _ _ => rfl⟩ rfl
        have hne : Ty.inferVar i ≠ .inferVar x := fun e => hi (.inr (Ty.inferVar.inj e))
        exact Function.update_of_ne hne _ _

theorem setBoundIn (ty : Ty) (bound : Bound) : Tracks v g (g.setBoundIn v ty bound) where
  toLocal := Local.setBoundIn g v ty bound
  tracked hg hv _ := by
    rcases ty.rigid_or_var with hr | ⟨x, rfl⟩
    · have hsame : g.setBoundIn v ty bound = g := by
        cases ty <;> first | rfl | exact hr.elim
      rw [hsame]
      exact .refl _ _
    · rw [view_setBoundIn hg hv]
      split
      · exact .refl _ _
      · refine View.Announced.marked ⟨fun _ => Or.inl, fun _ _ => id, fun i hi => ?_,
          fun _ _ => rfl, fun _ _ _ => rfl⟩ rfl
        have hne : Ty.inferVar i ≠ .inferVar x := fun e => hi (.inr (Ty.inferVar.inj e))
        exact Function.update_of_ne hne _ _

/-- The variable a union re-points is woken. -/
theorem union (left right : Ty) : Tracks v g (g.union v left right).2 where
  toLocal := Local.union g v left right
  tracked hg hv _ := by
    by_cases hne : g.find v left = g.find v right
    · rw [union_of_eq hne]
      exact .refl _ _
    · rw [view_union hg hv hne]
      refine View.Announced.marked ⟨fun _ => Or.inl, fun i hi hp => ?_, fun _ _ => rfl,
        fun _ _ => rfl, fun _ _ _ => rfl⟩ rfl
      have hchild : Ty.inferVar i ≠ (unionEdge (g.find v left) (g.find v right)).1 := by
        intro e
        exact hi (.inr (by rw [← e]; rfl))
      exact (Function.update_of_ne hchild _ _).trans hp

theorem addDependent (argTy parentTy : Ty) : Tracks v g (g.addDependent v argTy parentTy) where
  toLocal := Local.modifyState g v _ rfl
  tracked hg hv _ := by
    rw [view_addDependent hg hv]
    refine View.Quiet.tracked (fun hpending => ?_) (.of_eq (fun _ => rfl) rfl rfl rfl rfl) rfl
    exact ⟨fun _ _ => id, rfl, rfl, fun _ _ => rfl, hpending, rfl⟩

theorem writes : Writes v (Tracks v) where
  refl := refl v
  trans := trans
  findMut g ty := findMut g v ty
  lowerUniverse g index ceiling := lowerUniverse g v index ceiling
  setDomainIn g ty domain := setDomainIn g v ty domain
  setBoundIn g ty bound := setBoundIn g v ty bound
  union g left right := union g v left right
  addDependent g argTy parentTy := addDependent g v argTy parentTy

/-- A new variable changes nothing for those there are. -/
theorem allocVarInDomain (hlive : g.versions.isLive v = true) (u : Universe)
    (domain : InferDomain) : Tracks v g (g.allocVarInDomain v u domain).2 where
  toLocal := Local.allocVarInDomain g v u domain hlive
  tracked hg _ _ := by
    have hold : ∀ i < g.versions.varInfos.length,
        Function.update (g.view v).ceiling g.versions.varInfos.length (some u) i =
          (g.view v).ceiling i := fun i hi => Function.update_of_ne (Nat.ne_of_lt hi) _ _
    rw [Local.view_allocVarInDomain hg hlive]
    refine View.Quiet.tracked (fun hpending => ?_) ?_ rfl
    · exact ⟨fun _ _ => id, rfl, rfl, hold, hpending, rfl⟩
    · exact ⟨fun _ => id, fun _ _ => id, fun _ _ => rfl, fun _ _ => rfl, fun i hi _ => hold i hi⟩

end Tracks

/-! ### Congruence closure -/

section Rebuild

variable [HashOrder]

/-- What a rebuild does while it works: pointers of rigid types move, uncounted. -/
structure Repoints (v : Version) (g g' : VersionedEGraph) : Prop extends Confined v g g' where
  announced : g.WF → v < g.states.length →
    View.Announced {i | i < g.versions.varInfos.length} (g.view v) (g'.view v)
  revision : g.WF → v < g.states.length → (g'.view v).revision = (g.view v).revision

namespace Repoints

omit [HashOrder] in
theorem refl (v : Version) (g : VersionedEGraph) : Repoints v g g :=
  ⟨Confined.refl v g, fun _ _ => .refl _ _, fun _ _ => rfl⟩

omit [HashOrder] in
theorem trans (h : Repoints v g g') (h' : Repoints v g' g'') : Repoints v g g'' where
  toConfined := h.toConfined.trans h'.toConfined
  announced hg hv := (h.announced hg hv).trans
    (h'.announced (h.wf hg) (h.length ▸ hv)) h.toConfined.known_subset
  revision hg hv :=
    (h'.revision (h.wf hg) (h.length ▸ hv)).trans (h.revision hg hv)

omit [HashOrder] in
theorem rebuildDependent (acc : VersionedEGraph × List Ty) (dependent : Ty) :
    Repoints v acc.1 (rebuildDependent v acc dependent).1 := by
  obtain ⟨g, changed⟩ := acc
  simp only [VersionedEGraph.rebuildDependent]
  split
  · exact refl v g
  · rename_i newTy hnew
    split
    · exact refl v g
    -- only a type with children has a canonical form of its own
    have hchildren : (decompose dependent).children ≠ [] := by
      intro hnil
      simp [recanonicalize, hnil] at hnew
    obtain ⟨c, hc⟩ := List.exists_mem_of_ne_nil _ hchildren
    have hrigid := Ty.rigid_of_mem_children hc
    have hset : Confined v g (g.setParent v dependent (g.find v newTy)) :=
      Confined.modifyState g v _
    have hview : g.WF → v < g.states.length →
        ((g.setParent v dependent (g.find v newTy)).modifyState v fun s =>
          { s with worklist := s.worklist ++ [dependent] }).view v =
          { g.view v with
            parent := Function.update (g.view v).parent dependent (g.find v newTy)
            worklist := (g.view v).worklist ++ [dependent] } := fun hg hv => by
      rw [view_pushWorklist (hset.wf hg) (hset.length ▸ hv), view_setParent hg hv]
    refine ⟨hset.trans (Confined.modifyState _ v _), fun hg hv => ?_, fun hg hv => ?_⟩
    · rw [hview hg hv]
      refine .of_eq (fun i => Function.update_of_ne ?_ _ _) rfl rfl rfl rfl
      rintro rfl
      exact hrigid
    · rw [hview hg hv]

omit [HashOrder] in
theorem foldl {α β : Type} {f : VersionedEGraph × β → α → VersionedEGraph × β}
    (hf : ∀ acc a, Repoints v acc.1 (f acc a).1) (as : List α) (acc : VersionedEGraph × β) :
    Repoints v acc.1 (as.foldl f acc).1 := by
  induction as generalizing acc with
  | nil => exact refl v acc.1
  | cons a as ih => exact (hf acc a).trans (ih _)

omit [HashOrder] in
theorem takeWorklist (v : Version) (g : VersionedEGraph) :
    Repoints v g (g.modifyState v fun s => { s with worklist := [] }) where
  toConfined := Confined.modifyState g v _
  announced hg hv := by
    rw [view_setWorklist hg hv]
    exact .of_eq (fun _ => rfl) rfl rfl rfl rfl
  revision hg hv := by rw [view_setWorklist hg hv]

theorem rebuildFrom {fuel : Nat} {acc : VersionedEGraph × List Ty} {changed : List Ty}
    (h : rebuildFrom fuel v acc = some (changed, g')) : Repoints v acc.1 g' := by
  induction fuel generalizing acc with
  | zero => cases h
  | succ fuel ih =>
      obtain ⟨g, changed'⟩ := acc
      simp only [VersionedEGraph.rebuildFrom] at h
      split at h
      · obtain ⟨-, rfl⟩ := Prod.mk.inj (Option.some.inj h)
        exact takeWorklist v g
      · refine (takeWorklist v g).trans ((foldl (fun acc merged => ?_) _ _).trans (ih h))
        exact foldl rebuildDependent _ acc

end Repoints

/-- A rebuild with nothing pending does nothing; with something pending, that was counted. -/
theorem Tracks.rebuild {fuel : Nat} {changed : List Ty}
    (h : g.rebuild fuel v = some (changed, g')) : Tracks v g g' where
  toLocal := Local.rebuild v h
  tracked hg hv hp := by
    have hr : Repoints v g g' := Repoints.rebuildFrom h
    refine View.Quiet.tracked (fun hpending => ?_) (hr.announced hg hv) (hr.revision hg hv)
    have hnil : (g.state v).worklist = [] := by
      rwa [view_eq hg, View.ofLayers_cons] at hpending
    cases fuel with
    | zero => cases h
    | succ fuel =>
        simp only [VersionedEGraph.rebuild, rebuildFrom, hnil, if_true] at h
        obtain ⟨-, rfl⟩ := Prod.mk.inj (Option.some.inj h)
        rw [view_setWorklist hg hv]
        exact ⟨fun _ _ => id, rfl, rfl, fun _ _ => rfl, rfl, rfl⟩

end Rebuild

end VersionedEGraph

end Sage
