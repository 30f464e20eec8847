import Sage.Infer.TryUnify

/-!
# Inference — congruence of the union-find

Compound types that were unified are registered with their children, so that `rebuild` can
re-point them when a child gets a new representative.

* `Coarser` — a version never takes an equality back.
* `Congruent` — registered types with equal children are equal.
* `Merging.unifyInProbe` — unification equates what it is asked to and takes nothing back.
* `CleanRebuild.settles` — a rebuild closes the equalities under congruence, and takes nothing
  back, when each dependent it re-points represents itself and is itself attended.
-/

namespace Sage

open Loop

/-- Whatever `find` sends to one representative, `find'` does. -/
def Coarser (find find' : Ty → Ty) : Prop := ∀ l r, find l = find r → find' l = find' r

theorem Coarser.refl (find : Ty → Ty) : Coarser find find := fun _ _ => id

theorem Coarser.trans {find find' find'' : Ty → Ty} (h : Coarser find find')
    (h' : Coarser find' find'') : Coarser find find'' := fun l r e => h' l r (h l r e)

/-- Lists that are equal through one `find` are equal through a coarser one. -/
theorem Coarser.map {find find' : Ty → Ty} (h : Coarser find find') {as bs : List Ty}
    (he : as.map find = bs.map find) : as.map find' = bs.map find' := by
  rw [← List.forall₂_eq_eq_eq, List.forall₂_map_left_iff, List.forall₂_map_right_iff] at he ⊢
  exact he.imp h

namespace VersionedEGraph

variable {g g' g'' : VersionedEGraph} {v : Version} {S : Store}

/-! ### Registered types -/

/-- A compound type that is registered with some child. -/
def IsRegistered (g : VersionedEGraph) (v : Version) (d : Ty) : Prop :=
  ∃ c, d ∈ (g.view v).dependents c

instance (d : Ty) : Decidable (g.IsRegistered v d) :=
  decidable_of_iff (d ∈ g.registered v) mem_registered

instance (c d : Ty) : Decidable (d ∈ (g.view v).dependents c) :=
  inferInstanceAs (Decidable (∃ s ∈ g.layers v, d ∈ (s.dependents.lookup c).getD []))

/-- What holds of the registered types is decided on their list. -/
instance {P : Ty → Prop} [DecidablePred P] : Decidable (∀ d, g.IsRegistered v d → P d) :=
  decidable_of_iff (∀ d ∈ g.registered v, P d) (forall_congr' fun _ => by rw [mem_registered]; rfl)

/-- One skeleton over children that version `v` equates pairwise. -/
def Alike (g : VersionedEGraph) (v : Version) (d e : Ty) : Prop :=
  (decompose d).skeleton = (decompose e).skeleton ∧
    (decompose d).children.map (g.find v) = (decompose e).children.map (g.find v)

/-- Registered types with one skeleton and equal children are equal. -/
def Congruent (g : VersionedEGraph) (v : Version) : Prop :=
  ∀ d e, g.IsRegistered v d → g.IsRegistered v e → g.Alike v d e → g.find v d = g.find v e

/-- The type over the representatives of the children. -/
def canonical (g : VersionedEGraph) (v : Version) (d : Ty) : Ty := (g.recanonicalize v d).getD d

theorem decompose_canonical (g : VersionedEGraph) (v : Version) (d : Ty) :
    decompose (g.canonical v d) =
      ⟨(decompose d).skeleton, (decompose d).children.map (g.find v)⟩ := by
  have hself : (decompose d).children.map (g.find v) = (decompose d).children →
      decompose d = ⟨(decompose d).skeleton, (decompose d).children.map (g.find v)⟩ :=
    fun h => by rw [h]
  simp only [canonical, recanonicalize]
  split
  · rename_i hnil
    exact hself (by rw [hnil]; rfl)
  split
  · rename_i _ hsame
    exact hself hsame
  · have hlength : ((decompose d).children.map (g.find v)).length =
        (decompose d).skeleton.arity := by rw [List.length_map, length_children]
    obtain ⟨u, hu, hd⟩ := decompose_recompose hlength
    rw [hu, Option.getD_some, hd]

theorem canonical_congr {w : Version} (h : g'.find w = g.find v) :
    g'.canonical w = g.canonical v := by
  funext d
  rw [canonical, canonical, recanonicalize, recanonicalize, h]

theorem Alike.canonical_eq {d e : Ty} (h : g.Alike v d e) : g.canonical v d = g.canonical v e := by
  apply decompose_injective <;> rw [decompose_canonical, decompose_canonical]
  · exact h.1
  · exact h.2

theorem Alike.symm {d e : Ty} (h : g.Alike v d e) : g.Alike v e d := ⟨h.1.symm, h.2.symm⟩

theorem Alike.trans {d e f : Ty} (h : g.Alike v d e) (h' : g.Alike v e f) : g.Alike v d f :=
  ⟨h.1.trans h'.1, h.2.trans h'.2⟩

theorem Alike.coarser {d e : Ty} (h : g.Alike v d e) (hc : Coarser (g.find v) (g'.find v)) :
    g'.Alike v d e := ⟨h.1, hc.map h.2⟩

/-- A type is equal to its canonical form. -/
def Settled (g : VersionedEGraph) (v : Version) (d : Ty) : Prop :=
  g.find v (g.canonical v d) = g.find v d

instance (d : Ty) : Decidable (g.Settled v d) :=
  inferInstanceAs (Decidable (g.find v (g.canonical v d) = g.find v d))

/-- Settled types are congruent. -/
theorem Settled.find_eq {d e : Ty} (hd : g.Settled v d) (he : g.Settled v e)
    (h : g.Alike v d e) : g.find v d = g.find v e := by
  rw [← hd, ← he, h.canonical_eq]

/-! ### What holds while types are merged -/

/-- Types are registered with all their children, and have the head and the children of their
representative. -/
structure Merging (g : VersionedEGraph) (v : Version) : Prop where
  wf : g.WF
  lt : v < g.states.length
  grounded : Chase.Grounded (g.getParent v)
  registered : ∀ c d, d ∈ (g.view v).dependents c → ∀ c' ∈ (decompose d).children,
    d ∈ (g.view v).dependents c'
  alike : ∀ d, d.Rigid → g.Alike v d (g.find v d)

theorem rigid_of_skeleton {t d : Ty} (hd : d.Rigid)
    (hs : (decompose d).skeleton = (decompose t).skeleton) : t.Rigid := by
  refine t.rigid_or_var.resolve_right fun ⟨x, hx⟩ => ?_
  subst hx
  rcases d with _ | _ | _ | _ | _ | _ | _ | (_ | _ | _) | _ | _ | _ | _ | _ | _ | _ | _ | _ <;>
    simp_all [decompose, leaf, Ty.Rigid]

/-- The same pointers and the same dependents. -/
theorem Merging.of_view {w : Version} (h : Merging g v) (hwf : g'.WF) (hlt : w < g'.states.length)
    (hp : g'.getParent w = g.getParent v)
    (hd : (g'.view w).dependents = (g.view v).dependents) :
    Merging g' w ∧ g'.find w = g.find v := by
  have hfind : g'.find w = g.find v := by
    funext t
    refine (find_eq_iff (hp ▸ h.grounded)).mpr ?_
    rw [hp]
    exact find_reaches h.grounded t
  refine ⟨⟨hwf, hlt, hp ▸ h.grounded, by rw [hd]; exact h.registered, fun d hr => ?_⟩, hfind⟩
  have ha := h.alike d hr
  rwa [Alike, hfind]

/-- A child resolves to a smaller type than its parent, so it has another representative. -/
theorem Represents.find_child_ne (h : Represents g v S) {c e : Ty}
    (hc : c ∈ (decompose e).children) : g.find v c ≠ g.find v e := by
  intro he
  have hlt : (c.subst S.resolve).term.size < (e.subst S.resolve).term.size := by
    refine Ty.size_child_lt ?_
    rw [Ty.decompose_subst (Ty.rigid_of_mem_children hc)]
    exact List.mem_map_of_mem hc
  rw [← h.subst_find c, he, h.subst_find] at hlt
  exact Nat.lt_irrefl _ hlt

/-- Pointing one representative at another moves exactly its class. -/
theorem find_point (hp : Chase.Grounded (g.getParent v)) {a b : Ty} (ha : g.getParent v a = a)
    (hb : g.getParent v b = b) (hne : b ≠ a)
    (h : g'.getParent v = Function.update (g.getParent v) a b) (t : Ty) :
    g'.find v t = if g.find v t = a then b else g.find v t := by
  refine (find_eq_iff ?_).mpr ?_
  · exact h ▸ Chase.grounded_update hp hb hne
  · rw [h]
    exact Chase.reaches_update_root ha hb hne (find_reaches hp t)

/-- What one change owes: nothing is taken back. -/
structure Merges (v : Version) (g g' : VersionedEGraph) : Prop where
  merging : Merging g' v
  coarser : Coarser (g.find v) (g'.find v)

theorem Merging.merges (h : Merging g v) : Merges v g g := ⟨h, .refl _⟩

theorem Merges.trans (h : Merges v g g') (h' : Merges v g' g'') : Merges v g g'' :=
  ⟨h'.merging, h.coarser.trans h'.coarser⟩

/-- Pointing a variable at a type, or a compound type at one with the same head and children. -/
theorem Merging.point (h : Merging g v) (hl : Local v g g') {a b : Ty}
    (ha : g.getParent v a = a) (hb : g.getParent v b = b) (hne : b ≠ a)
    (halike : a.Rigid → g.Alike v a b)
    (hp : g'.getParent v = Function.update (g.getParent v) a b)
    (hd : (g'.view v).dependents = (g.view v).dependents) : Merges v g g' := by
  have hfind := find_point h.grounded ha hb hne hp
  have hcoarser : Coarser (g.find v) (g'.find v) := fun l r e => by rw [hfind, hfind, e]
  refine ⟨⟨hl.wf h.wf, hl.length ▸ h.lt, hl.grounded h.wf h.lt h.grounded,
    by rw [hd]; exact h.registered, fun d hr => ?_⟩, hcoarser⟩
  have hdr := h.alike d hr
  rw [hfind]
  split
  · rename_i hda
    rw [hda] at hdr
    exact (hdr.trans (halike (rigid_of_skeleton hr hdr.1))).coarser hcoarser
  · exact hdr.coarser hcoarser

/-- A union equates its two sides. -/
theorem Merging.union (h : Merging g v) (left right : Ty)
    (halike : (g.find v left).Rigid → (g.find v right).Rigid →
      g.Alike v (g.find v left) (g.find v right)) :
    Merges v g (g.union v left right).2 ∧
      (g.union v left right).2.find v left = (g.union v left right).2.find v right := by
  by_cases hne : g.find v left = g.find v right
  · rw [VersionedEGraph.union_of_eq hne]
    exact ⟨h.merges, hne⟩
  have hview := view_union h.wf h.lt hne
  have hlocal := Local.union g v left right
  have hroot := getParent_find h.grounded
  generalize (g.union v left right).2 = g' at hview hlocal ⊢
  -- one of the two representatives is pointed at the other
  have key : ∀ a b, unionEdge (g.find v left) (g.find v right) = (a, b) →
      g.getParent v a = a → g.getParent v b = b → b ≠ a → (a.Rigid → g.Alike v a b) →
      (g.find v left = a ∧ g.find v right = b ∨ g.find v left = b ∧ g.find v right = a) →
      Merges v g g' ∧ g'.find v left = g'.find v right := by
    intro a b he ha hb hba hal hends
    rw [he] at hview
    have hp : g'.getParent v = Function.update (g.getParent v) a b := by
      funext t
      rw [← view_parent, hview]
      rfl
    refine ⟨h.point hlocal ha hb hba hal hp (by rw [hview]), ?_⟩
    have hfind := find_point h.grounded ha hb hba hp
    rcases hends with ⟨hl, hr⟩ | ⟨hl, hr⟩
    · rw [hfind, hfind, hl, hr, if_pos rfl, if_neg hba]
    · rw [hfind, hfind, hl, hr, if_pos rfl, if_neg hba]
  rcases (g.find v left).rigid_or_var with hl | ⟨x, hx⟩
  · refine key (g.find v right) (g.find v left) ?_ (hroot right) (hroot left) hne
      (fun hr => (halike hl hr).symm) (.inr ⟨rfl, rfl⟩)
    cases hf : g.find v left <;> first | rfl | (rw [hf] at hl; exact hl.elim)
  · refine key (g.find v left) (g.find v right) (by rw [hx]; rfl) (hroot left) (hroot right)
      (Ne.symm hne) (fun hr => ?_) (.inl ⟨rfl, rfl⟩)
    rw [hx] at hr
    exact hr.elim

/-! ### Writes that merge nothing -/

theorem Merging.findMut (h : Merging g v) (t : Ty) :
    Merging (g.findMut v t).2 v ∧ (g.findMut v t).2.find v = g.find v := by
  have hl := Local.findMut g v t
  have hgrounded := hl.grounded h.wf h.lt h.grounded
  have hsame : SameRecords v g (g.findMut v t).2 := SameRecords.compressPathFrom h.wf h.lt
  have hfind : (g.findMut v t).2.find v = g.find v := by
    funext u
    refine (find_eq_iff hgrounded).mpr ?_
    exact Local.compressPathFrom_induct g v
      (motive := fun p => ∀ a r, Chase.Reaches (g.getParent v) a r → Chase.Reaches p a r)
      (fun p ty hp hty hne a r har => Chase.reaches_update_self hty hne (hp a r har)) _ h.wf h.lt
      (find_reaches h.grounded t) (fun _ _ => id) u _ (find_reaches h.grounded u)
  refine ⟨⟨hl.wf h.wf, hl.length ▸ h.lt, hgrounded, by rw [hsame.dependents]; exact h.registered,
    fun d hr => ?_⟩, hfind⟩
  have ha := h.alike d hr
  rwa [Alike, hfind]

theorem mem_dependents_foldl (t : Ty) (children : List Ty) : ∀ g : VersionedEGraph, g.WF →
    v < g.states.length →
    (children.foldl (fun g child => g.addDependent v child t) g).getParent v = g.getParent v ∧
    ∀ c d, d ∈ ((children.foldl (fun g child => g.addDependent v child t) g).view v).dependents c ↔
      d ∈ (g.view v).dependents c ∨ d = t ∧ c ∈ children := by
  induction children with
  | nil => simp
  | cons child children ih =>
      intro g hg hv
      have hl : Local v g (g.addDependent v child t) := Local.modifyState g v _ rfl
      have hview := view_addDependent hg hv child t
      obtain ⟨hp, hd⟩ := ih _ (hl.wf hg) (hl.length ▸ hv)
      refine ⟨hp.trans (congrArg View.parent hview), fun c d => ?_⟩
      rw [List.foldl_cons, hd, hview]
      by_cases hc : c = child
      · subst hc
        simp only [Function.update_self, Set.mem_insert_iff, List.mem_cons, true_or, and_true]
        tauto
      · simp [hc]

/-- Registering a type with all its children. -/
theorem Merging.addDependents (h : Merging g v) (t : Ty) :
    Merging (g.addDependents v t) v ∧ (g.addDependents v t).find v = g.find v := by
  obtain ⟨hp, hd⟩ := mem_dependents_foldl t (decompose t).children g h.wf h.lt
  have hl := Local.addDependents g v t
  have hfind : (g.addDependents v t).find v = g.find v := find_congr h.grounded hp
  refine ⟨⟨hl.wf h.wf, hl.length ▸ h.lt, hl.grounded h.wf h.lt h.grounded,
    fun c d hc c' hc' => ?_, fun d hr => ?_⟩, hfind⟩
  · rw [VersionedEGraph.addDependents, hd] at hc ⊢
    rcases hc with hc | ⟨rfl, -⟩
    · exact .inl (h.registered c d hc c' hc')
    · exact .inr ⟨rfl, hc'⟩
  · have ha := h.alike d hr
    rwa [Alike, hfind]

theorem Merging.setDomainIn (h : Merging g v) (t : Ty) (domain : InferDomain) :
    Merging (g.setDomainIn v t domain) v ∧ (g.setDomainIn v t domain).find v = g.find v := by
  have hl := Local.setDomainIn g v t domain
  suffices (g.setDomainIn v t domain).getParent v = g.getParent v ∧
      ((g.setDomainIn v t domain).view v).dependents = (g.view v).dependents from
    h.of_view (hl.wf h.wf) (hl.length ▸ h.lt) this.1 this.2
  rcases (g.find v t).rigid_or_var with hr | ⟨y, hy⟩
  · rw [VersionedEGraph.setDomainIn]
    cases hf : g.find v t <;> first | exact ⟨rfl, rfl⟩ | (rw [hf] at hr; exact hr.elim)
  · have hview := view_setDomainIn h.wf h.lt t hy domain
    have hparent : ∀ u, (g.setDomainIn v t domain).getParent v u = g.getParent v u := fun u => by
      rw [← view_parent, hview]
      split <;> rfl
    refine ⟨funext hparent, ?_⟩
    rw [hview]
    split <;> rfl

/-! ### Unification -/

/-- What a successful unification owes. -/
def Equated (v : Version) (g g' : VersionedEGraph) (left right : Ty) : Prop :=
  Merges v g g' ∧ g'.find v left = g'.find v right

namespace Merging

variable {x y : InferVarIndex} {t : Ty} {fuel : Nat}

theorem bindVariable (h : Merging g v) (hS : Represents g v S) (hx : S.Unresolved x)
    (hrun : g.bindVariable fuel v (.inferVar x) x t = some (.ok (), g')) :
    Equated v g g' (.inferVar x) t := by
  simp only [VersionedEGraph.bindVariable] at hrun
  split at hrun
  · cases hrun
  · simp at hrun
  rename_i hocc
  have hnotMem : x ∉ (t.subst S.resolve).vars := fun hm => by
    cases (hS.occursIn_iff hocc).mpr hm
  split at hrun
  · cases hrun
  · simp at hrun
  rename_i g₁ hacc
  simp only [Option.some.injEq, Prod.mk.injEq, true_and] at hrun
  obtain ⟨hl, -, -⟩ := makeAccessible_ok hS hacc
  have hS₁ := hl.represents hS
  obtain ⟨wakes, revision, hview⟩ := Represents.setBoundIn_view hS₁.wf hS₁.lt (x := x) (.exactly t)
  have hlocal := hl.toLocal.trans (Local.setBoundIn g₁ v (.inferVar x) (.exactly t))
  generalize g₁.setBoundIn v (.inferVar x) (.exactly t) = g₂ at hrun hview hlocal
  -- neither the ceilings nor the bound touch a pointer
  have hparent : g₂.getParent v = g.getParent v := by
    funext u
    rw [← view_parent, hview, ← view_parent, ← hl.parent_eq]
  obtain ⟨h₂, hfind⟩ := h.of_view (hlocal.wf h.wf) (hlocal.length ▸ h.lt) hparent
    (by rw [hview]; exact hl.dependents)
  have hroot : g₂.find v (.inferVar x) = .inferVar x := by
    rw [hfind, hS.find_eq_inferVar, Ty.subst_inferVar]
    exact hx
  obtain ⟨hm, he⟩ := h₂.union (.inferVar x) t fun hrigid => by
    rw [hroot] at hrigid
    exact hrigid.elim
  rw [hrun] at hm he
  exact ⟨⟨hm.merging, hfind ▸ hm.coarser⟩, he⟩

theorem unifyVariables (h : Merging g v) (hS : Represents g v S) (hx : S.Unresolved x)
    (hy : S.Unresolved y)
    (hrun : g.unifyVariables v (.inferVar x) (.inferVar y) x y = some (.ok (), g')) :
    Equated v g g' (.inferVar x) (.inferVar y) := by
  have hsx : (Ty.inferVar x).subst S.resolve = .inferVar x := (Ty.subst_inferVar _ _).trans hx
  have hsy : (Ty.inferVar y).subst S.resolve = .inferVar y := (Ty.subst_inferVar _ _).trans hy
  simp only [VersionedEGraph.unifyVariables] at hrun
  split at hrun
  · simp at hrun
  rename_i domain _
  simp only [Option.some.injEq, Prod.mk.injEq, true_and] at hrun
  obtain ⟨hl, -⟩ := lowered_pair (x := x) (y := y)
    (c := min (g.currentUniverse v x) (g.currentUniverse v y)) hS rfl
  generalize (g.lowerUniverse v x _).lowerUniverse v y _ = g₂ at hl hrun
  obtain ⟨h₂, hfind⟩ := h.of_view (hl.wf h.wf) (hl.length ▸ h.lt) hl.parent_eq hl.dependents
  have hroot : g₂.find v (.inferVar x) = .inferVar x := by
    rw [hfind]
    exact hS.find_eq_inferVar.mpr hsx
  obtain ⟨hm, he⟩ := h₂.union (.inferVar x) (.inferVar y) fun hrigid => by
    rw [hroot] at hrigid
    exact hrigid.elim
  obtain ⟨h₃, hfind₃⟩ := hm.merging.setDomainIn
    (g₂.union v (.inferVar x) (.inferVar y)).1 (domain.getD .any)
  rw [hrun] at h₃ hfind₃
  refine ⟨⟨h₃, ?_⟩, by rw [hfind₃]; exact he⟩
  rw [hfind₃, ← hfind]
  exact hm.coarser

/-- A list of pairs, unified one after the other. -/
theorem loop (h : Merging g v)
    (ih : ∀ left right g g', Merging g v → (∃ S, Represents g v S) →
      VersionedEGraph.unifyInProbe fuel v left right g = some (.ok (), g') →
        Equated v g g' left right)
    (hrep : ∃ S, Represents g v S) {pairs : List (Ty × Ty)}
    (hrun : forEach (fun p : Ty × Ty => VersionedEGraph.unifyInProbe fuel v p.1 p.2) pairs g =
      some (.ok (), g')) :
    Merges v g g' ∧ ∀ p ∈ pairs, g'.find v p.1 = g'.find v p.2 := by
  induction pairs generalizing g with
  | nil =>
      simp only [forEach, Option.some.injEq, Prod.mk.injEq, true_and] at hrun
      exact hrun ▸ ⟨h.merges, by simp⟩
  | cons p pairs hpairs =>
      rw [forEach] at hrun
      obtain ⟨_, g₁, hp, hrest⟩ := andThen_eq_ok.mp hrun
      obtain ⟨hm, he⟩ := ih p.1 p.2 g g₁ h hrep hp
      obtain ⟨S, hS⟩ := hrep
      obtain ⟨hm', hes⟩ := hpairs hm.merging (keepsStore_unifyInProbe hp S hS) hrest
      refine ⟨hm.trans hm', fun q hq => ?_⟩
      rcases List.mem_cons.mp hq with rfl | hq
      · exact hm'.coarser _ _ he
      · exact hes q hq

/-- Two compound types, after their children were equated. -/
theorem unifyRigid {left right : Ty} (h : Merging g v)
    (ih : ∀ left right g g', Merging g v → (∃ S, Represents g v S) →
      VersionedEGraph.unifyInProbe fuel v left right g = some (.ok (), g') →
        Equated v g g' left right)
    (hrep : ∃ S, Represents g v S) (hlr : left.Rigid) (hrr : right.Rigid)
    (hrun : g.unifyRigid (VersionedEGraph.unifyInProbe fuel v) v left right = some (.ok (), g')) :
    Equated v g g' left right := by
  simp only [VersionedEGraph.unifyRigid] at hrun
  split at hrun
  · simp at hrun
  rename_i hne
  rw [not_or, not_not, not_not] at hne
  obtain ⟨h₁, hfind₁⟩ := h.addDependents left
  obtain ⟨h₂, hfind₂⟩ := h₁.addDependents right
  have hrep₂ : ∃ S, Represents ((g.addDependents v left).addDependents v right) v S :=
    hrep.imp fun S hS => (hS.addDependents left).addDependents right
  rw [hfind₁] at hfind₂
  generalize (g.addDependents v left).addDependents v right = g₂ at h₂ hfind₂ hrep₂ hrun
  obtain ⟨_, g₃, hloop, hunion⟩ := andThen_eq_ok.mp hrun
  simp only [Option.some.injEq, Prod.mk.injEq, true_and] at hunion
  obtain ⟨hm, hpairs⟩ := h₂.loop ih hrep₂ hloop
  have halike : g₃.Alike v left right := by
    refine ⟨hne.1, ?_⟩
    rw [← List.forall₂_eq_eq_eq, List.forall₂_map_left_iff, List.forall₂_map_right_iff]
    exact List.forall₂_iff_zip.mpr ⟨hne.2, fun hp => hpairs _ hp⟩
  obtain ⟨hm', he⟩ := hm.merging.union left right fun _ _ =>
    (hm.merging.alike left hlr).symm.trans (halike.trans (hm.merging.alike right hrr))
  rw [hunion] at hm' he
  exact ⟨⟨hm'.merging, hfind₂ ▸ (hm.coarser.trans hm'.coarser)⟩, he⟩

theorem unifyRoots {left right : Ty} (h : Merging g v)
    (ih : ∀ left right g g', Merging g v → (∃ S, Represents g v S) →
      VersionedEGraph.unifyInProbe fuel v left right g = some (.ok (), g') →
        Equated v g g' left right)
    (hS : Represents g v S) (hlroot : ∀ x, left = .inferVar x → S.Unresolved x)
    (hrroot : ∀ x, right = .inferVar x → S.Unresolved x)
    (hrun : g.unifyRoots fuel (VersionedEGraph.unifyInProbe fuel v) v left right =
      some (.ok (), g')) :
    Equated v g g' left right := by
  simp only [VersionedEGraph.unifyRoots] at hrun
  split at hrun
  · rename_i he
    simp only [Option.some.injEq, Prod.mk.injEq, true_and] at hrun
    exact hrun ▸ ⟨h.merges, by rw [he]⟩
  split at hrun
  · simp at hrun
  · simp at hrun
  · exact h.unifyVariables hS (hlroot _ rfl) (hrroot _ rfl) hrun
  · split at hrun
    · simp at hrun
    · exact h.bindVariable hS (hlroot _ rfl) hrun
  · split at hrun
    · simp at hrun
    · obtain ⟨hm, he⟩ := h.bindVariable hS (hrroot _ rfl) hrun
      exact ⟨hm, he.symm⟩
  · rename_i hlvar _ hrvar _
    have hlr : left.Rigid := left.rigid_or_var.resolve_right (not_exists.mpr hlvar)
    have hrr : right.Rigid := right.rigid_or_var.resolve_right (not_exists.mpr hrvar)
    exact h.unifyRigid ih ⟨S, hS⟩ hlr hrr hrun

/-- A successful unification equates its two sides and takes nothing back. -/
theorem unifyInProbe (fuel : Nat) : ∀ (left right : Ty) (g g' : VersionedEGraph), Merging g v →
    (∃ S, Represents g v S) →
    VersionedEGraph.unifyInProbe fuel v left right g = some (.ok (), g') →
    Equated v g g' left right := by
  induction fuel with
  | zero => intro left right g g' _ _ hrun; cases hrun
  | succ fuel ih =>
      rintro left right g g' h ⟨S, hS⟩ hrun
      obtain ⟨h₁, hfind₁⟩ := h.findMut left
      obtain ⟨h₂, hfind₂⟩ := h₁.findMut right
      have hS₁ := hS.findMut left
      have hroot : ∀ {g : VersionedEGraph} {t : Ty}, Represents g v S → ∀ x,
          g.find v t = .inferVar x → S.Unresolved x := fun h x hx =>
        Store.unresolved_of_eq (h.find_eq_inferVar.mp hx)
      rw [VersionedEGraph.unifyInProbe] at hrun
      obtain ⟨hm, he⟩ := h₂.unifyRoots ih (hS₁.findMut right) (hroot hS) (hroot hS₁) hrun
      rw [hfind₁] at hfind₂
      have hcoarser : Coarser (g.find v) (g'.find v) := hfind₂ ▸ hm.coarser
      have hself : ∀ t, g'.find v t = g'.find v (g.find v t) := fun t =>
        hcoarser _ _ (find_find h.grounded t).symm
      refine ⟨⟨hm.merging, hcoarser⟩, ?_⟩
      rw [hself left, hself right]
      rw [hfind₁] at he
      exact he

end Merging

/-! ### Rebuilding -/

/-- Every registered type over a child that `m` represents is represented by a type registered
under `m`. -/
def Attends (g : VersionedEGraph) (v : Version) (m : Ty) : Prop :=
  ∀ e, g.IsRegistered v e → (∃ c ∈ (decompose e).children, g.find v c = m) →
    g.find v e ∈ (g.view v).dependents m

/-- A dependent that is re-pointed represents itself, and what it is a child of is attended. -/
def CleanVisit (v : Version) (acc : VersionedEGraph × List Ty) (d : Ty) : Prop :=
  acc.1.find v (acc.1.canonical v d) ≠ acc.1.find v d → acc.1.find v d = d ∧ acc.1.Attends v d

instance (m : Ty) : Decidable (g.Attends v m) :=
  inferInstanceAs (Decidable (∀ e, g.IsRegistered v e →
    (∃ c ∈ (decompose e).children, g.find v c = m) → g.find v e ∈ (g.view v).dependents m))

instance (acc : VersionedEGraph × List Ty) (d : Ty) : Decidable (CleanVisit v acc d) :=
  inferInstanceAs (Decidable (_ → _ ∧ _))

/-- What is not settled is represented by a type that is still to be visited. -/
structure Pending (v : Version) (S : Store) (g₀ : VersionedEGraph) (P : Ty → Prop)
    (g : VersionedEGraph) : Prop where
  represents : Represents g v S
  merges : Merges v g₀ g
  same : SameRecords v g₀ g
  visits : ∀ e, g₀.IsRegistered v e → g.Settled v e ∨ P (g.find v e) ∨
    ∃ m ∈ (g.state v).worklist, g.find v e ∈ (g₀.view v).dependents m

section

variable [HashOrder]

/-- One merged type, every visit of which is clean. -/
def CleanMerged (v : Version) (acc : VersionedEGraph × List Ty) (m : Ty) : Prop :=
  AllAlong (rebuildDependent v) (CleanVisit v) acc (acc.1.collectDependents v m)

instance (acc : VersionedEGraph × List Ty) (m : Ty) : Decidable (CleanMerged v acc m) :=
  inferInstanceAs (Decidable (AllAlong _ _ _ _))

/-- The rounds of `rebuildFrom`, every visit of which is clean. -/
def CleanFrom : Nat → Version → VersionedEGraph × List Ty → Prop
  | 0, _, _ => True
  | fuel + 1, v, (g, changed) =>
      let worklist := (g.state v).worklist
      let g := g.modifyState v fun s => { s with worklist := [] }
      AllAlong (rebuildMerged v) (CleanMerged v) (g, changed) worklist ∧
        CleanFrom fuel v (worklist.foldl (rebuildMerged v) (g, changed))

/-- Every registered type that is not settled is represented by a type registered under a type on
the worklist, and every visit is clean. -/
structure CleanRebuild (g : VersionedEGraph) (fuel : Nat) (v : Version) : Prop where
  attended : ∀ e, g.IsRegistered v e → g.Settled v e ∨
    ∃ m ∈ (g.state v).worklist, g.find v e ∈ (g.view v).dependents m
  visits : CleanFrom fuel v (g, [])

instance decidableCleanFrom : ∀ (fuel : Nat) (acc : VersionedEGraph × List Ty),
    Decidable (CleanFrom fuel v acc)
  | 0, _ => inferInstanceAs (Decidable True)
  | fuel + 1, (_, _) =>
      have := decidableCleanFrom fuel
      inferInstanceAs (Decidable (AllAlong (rebuildMerged v) (CleanMerged v) _ _ ∧ _))

instance (fuel : Nat) : Decidable (g.CleanRebuild fuel v) :=
  decidable_of_iff ((∀ e, g.IsRegistered v e → g.Settled v e ∨
    ∃ m ∈ (g.state v).worklist, g.find v e ∈ (g.view v).dependents m) ∧ CleanFrom fuel v (g, []))
    ⟨fun h => ⟨h.1, h.2⟩, fun h => ⟨h.1, h.2⟩⟩

end

/-- A dependent is left alone, or pointed at the representative of its canonical form. -/
theorem rebuildDependent_canonical (v : Version) (acc : VersionedEGraph × List Ty) (d : Ty) :
    acc.1.find v (acc.1.canonical v d) = acc.1.find v d ∧ rebuildDependent v acc d = acc ∨
    acc.1.find v (acc.1.canonical v d) ≠ acc.1.find v d ∧
      rebuildDependent v acc d =
        ((acc.1.setParent v d (acc.1.find v (acc.1.canonical v d))).modifyState v fun s =>
          { s with worklist := s.worklist ++ [d] }, acc.2 ++ [d]) := by
  obtain ⟨g, changed⟩ := acc
  simp only [rebuildDependent, canonical]
  cases g.recanonicalize v d with
  | none => exact .inl ⟨rfl, rfl⟩
  | some newTy =>
      by_cases he : g.find v newTy = g.find v d
      · exact .inl ⟨he, if_pos he⟩
      · exact .inr ⟨he, if_neg he⟩

theorem Represents.rigid_of_registered (h : Represents g v S) {d : Ty} (hd : g.IsRegistered v d) :
    d.Rigid := by
  obtain ⟨c, hc⟩ := hd
  exact Ty.rigid_of_mem_children (h.dependents c d hc)

/-- The canonical form of a type is equal to it, child by child. -/
theorem alike_canonical (h : Chase.Grounded (g.getParent v)) (d : Ty) :
    g.Alike v d (g.canonical v d) := by
  rw [Alike, decompose_canonical, List.map_map]
  exact ⟨rfl, List.map_congr_left fun c _ => (find_find h c).symm⟩

namespace Pending

variable {g₀ : VersionedEGraph} {P : Ty → Prop}

theorem rebuildDependent {acc : VersionedEGraph × List Ty} {d : Ty}
    (h : Pending v S g₀ (fun e => e = d ∨ P e) acc.1) (hd : g₀.IsRegistered v d)
    (hc : CleanVisit v acc d) : Pending v S g₀ P (rebuildDependent v acc d).1 := by
  obtain ⟨hrep, hsame, -⟩ := h.represents.rebuildDependent d
  have hlocal := Local.rebuildDependent v acc d
  have hm := h.merges.merging
  have hregistered : ∀ {e}, g₀.IsRegistered v e → acc.1.IsRegistered v e := fun he => by
    rwa [IsRegistered, h.same.dependents]
  have hrigid : ∀ {e}, g₀.IsRegistered v e → e.Rigid := fun he =>
    h.represents.rigid_of_registered (hregistered he)
  have hdr := hrigid hd
  -- a type that `d` represents has the canonical form of `d`
  have hcanonical : ∀ e, g₀.IsRegistered v e → acc.1.find v e = acc.1.find v d →
      acc.1.canonical v e = acc.1.canonical v d := fun e he hed =>
    ((hm.alike e (hrigid he)).trans (hed ▸ (hm.alike d hdr).symm)).canonical_eq
  rcases rebuildDependent_canonical v acc d with ⟨hsettled, he⟩ | ⟨hne, he⟩
  · rw [he]
    refine ⟨h.represents, h.merges, h.same, fun e hreg => ?_⟩
    rcases h.visits e hreg with hs | (hv | hv) | hv
    · exact .inl hs
    · -- a settled representative settles the types it represents
      have hed : acc.1.find v e = acc.1.find v d := by
        rw [← hv, find_find hm.grounded e]
      refine .inl ?_
      rw [Settled, hcanonical e hreg hed, hsettled, hed]
    · exact .inr (.inl hv)
    · exact .inr (.inr hv)
  obtain ⟨hroot, hattends⟩ := hc hne
  rw [he] at hrep hsame hlocal ⊢
  have hview := view_repoint hm.wf hm.lt d (acc.1.find v (acc.1.canonical v d))
  generalize hnew : acc.1.find v (acc.1.canonical v d) = r at hne hlocal hrep hsame hview ⊢
  generalize (acc.1.setParent v d r).modifyState v _ = g₁ at hlocal hrep hsame hview ⊢
  rw [hroot] at hne
  have hp : g₁.getParent v = Function.update (acc.1.getParent v) d r := by
    funext t
    rw [← view_parent, hview]
    rfl
  have hdroot : acc.1.getParent v d = d := by
    rw [← hroot]
    exact getParent_find hm.grounded d
  have hrroot : acc.1.getParent v r = r := by
    rw [← hnew]
    exact getParent_find hm.grounded _
  have halike : acc.1.Alike v d r := by
    have hc := alike_canonical hm.grounded d
    have hcr := rigid_of_skeleton hdr hc.1
    exact hnew ▸ hc.trans (hm.alike _ hcr)
  have hmerges := hm.point hlocal hdroot hrroot hne (fun _ => halike) hp hsame.dependents
  have hfind := find_point hm.grounded hdroot hrroot hne hp
  have hwork : (g₁.state v).worklist = (acc.1.state v).worklist ++ [d] := by
    rw [← worklist_eq hmerges.merging.wf, hview, ← worklist_eq hm.wf]
  refine ⟨hrep, h.merges.trans hmerges, h.same.trans hsame, fun e hreg => ?_⟩
  by_cases hchild : ∃ c ∈ (decompose e).children, acc.1.find v c = d
  · -- a parent of the re-pointed class is visited when `d` is taken from the worklist
    obtain ⟨c, hcmem, hcd⟩ := hchild
    have hed : acc.1.find v e ≠ d := fun hed =>
      h.represents.find_child_ne hcmem (hcd.trans hed.symm)
    refine .inr (.inr ⟨d, by simp [hwork], ?_⟩)
    rw [hfind, if_neg hed, ← h.same.dependents]
    exact hattends e (hregistered hreg) ⟨c, hcmem, hcd⟩
  -- the canonical form of any other type stays what it was
  have hsame_canonical : g₁.canonical v e = acc.1.canonical v e := by
    apply decompose_injective <;> rw [decompose_canonical, decompose_canonical]
    refine List.map_congr_left fun c hcmem => ?_
    rw [hfind, if_neg fun hcd => hchild ⟨c, hcmem, hcd⟩]
  by_cases hed : acc.1.find v e = d
  · refine .inl ?_
    rw [Settled, hsame_canonical, hcanonical e hreg (hed.trans hroot.symm), hfind, hfind, hnew,
      if_neg hne, if_pos hed]
  have hstays : g₁.find v e = acc.1.find v e := by rw [hfind, if_neg hed]
  rcases h.visits e hreg with hs | (hv | hv) | ⟨m, hmem, hv⟩
  · refine .inl ?_
    rw [Settled, hsame_canonical, hfind, hs, hstays, if_neg hed]
  · exact absurd hv hed
  · exact .inr (.inl (hstays ▸ hv))
  · exact .inr (.inr ⟨m, by simp [hwork, hmem], hstays ▸ hv⟩)

theorem imp {Q : Ty → Prop} (h : Pending v S g₀ P g) (hPQ : ∀ e, P e → Q e) :
    Pending v S g₀ Q g :=
  ⟨h.represents, h.merges, h.same, fun e he => (h.visits e he).imp_right (.imp_left (hPQ _))⟩

/-- The worklist is set aside, and its types are still to be visited. -/
theorem takeWorklist (h : Pending v S g₀ (fun _ => False) g) :
    Pending v S g₀ (fun e => ∃ m ∈ (g.state v).worklist, e ∈ (g₀.view v).dependents m)
      (g.modifyState v fun s => { s with worklist := [] }) := by
  obtain ⟨hrep, hsame, -⟩ := h.represents.setWorklist []
  have hm := h.merges.merging
  obtain ⟨hm', hfind⟩ := hm.of_view hrep.wf hrep.lt
    (getParent_modifyState hm.wf hm.lt rfl) hsame.dependents
  refine ⟨hrep, ⟨hm', hfind ▸ h.merges.coarser⟩, h.same.trans hsame, fun e he => ?_⟩
  rw [Settled, canonical_congr hfind, hfind]
  rcases h.visits e he with hs | hv | hv
  · exact .inl hs
  · exact hv.elim
  · exact .inr (.inl hv)

variable [HashOrder]

theorem rebuildMerged {acc : VersionedEGraph × List Ty} {m : Ty}
    (h : Pending v S g₀ (fun e => e ∈ (g₀.view v).dependents m ∨ P e) acc.1)
    (hc : CleanMerged v acc m) : Pending v S g₀ P (rebuildMerged v acc m).1 := by
  have hmem : ∀ d, d ∈ acc.1.collectDependents v m ↔ d ∈ (g₀.view v).dependents m := fun d => by
    rw [mem_collectDependents, h.same.dependents]
  -- the dependents that are left are pending
  refine (AllAlong.foldl (I := fun ds acc => Pending v S g₀ (fun e => e ∈ ds ∨ P e) acc.1 ∧
    ∀ d ∈ ds, g₀.IsRegistered v d) ?_ hc ⟨?_, ?_⟩).1.imp ?_
  · rintro acc d ds ⟨hp, hreg⟩ hvisit
    refine ⟨rebuildDependent (hp.imp ?_) (hreg d List.mem_cons_self) hvisit,
      fun e he => hreg e (List.mem_cons_of_mem _ he)⟩
    rintro e (he | he)
    · exact (List.mem_cons.mp he).imp_right .inl
    · exact .inr (.inr he)
  · exact h.imp fun e => .imp_left (hmem e).mpr
  · exact fun d hd => ⟨m, (hmem d).mp hd⟩
  · rintro e (he | he)
    · cases he
    · exact he

/-- A rebuild whose visits are clean settles every registered type. -/
theorem rebuildFrom {fuel : Nat} {acc : VersionedEGraph × List Ty} {changed : List Ty}
    (h : Pending v S g₀ (fun _ => False) acc.1) (hc : CleanFrom fuel v acc)
    (hrun : rebuildFrom fuel v acc = some (changed, g')) :
    Merges v g₀ g' ∧ SameRecords v g₀ g' ∧ ∀ e, g₀.IsRegistered v e → g'.Settled v e := by
  induction fuel generalizing acc with
  | zero => cases hrun
  | succ fuel ih =>
      obtain ⟨g, changed'⟩ := acc
      simp only [VersionedEGraph.rebuildFrom] at hrun
      obtain ⟨hround, hrest⟩ := hc
      have htake := h.takeWorklist
      split at hrun
      · rename_i hnil
        simp only [Option.some.injEq, Prod.mk.injEq] at hrun
        rw [← hrun.2]
        refine ⟨htake.merges, htake.same, fun e he => ?_⟩
        rcases htake.visits e he with hs | ⟨m, hm, -⟩ | ⟨m, hm, -⟩
        · exact hs
        · simp [hnil] at hm
        · simp [(h.represents.setWorklist []).2.2] at hm
      · refine ih ((AllAlong.foldl (I := fun ms acc => Pending v S g₀
          (fun e => ∃ m ∈ ms, e ∈ (g₀.view v).dependents m) acc.1) ?_ hround htake).imp ?_)
          hrest hrun
        · intro acc m ms hp hclean
          exact rebuildMerged (hp.imp fun e he => by simpa using he) hclean
        · simp

end Pending

/-- A clean rebuild settles every registered type, and takes nothing back. -/
theorem CleanRebuild.settles [HashOrder] {fuel : Nat} {changed : List Ty}
    (h : g.CleanRebuild fuel v) (hm : Merging g v) (hS : Represents g v S)
    (hrun : g.rebuild fuel v = some (changed, g')) :
    Merges v g g' ∧ ∀ e, g'.IsRegistered v e → g'.Settled v e := by
  have hp : Pending v S g (fun _ => False) g :=
    ⟨hS, hm.merges, .refl v g, fun e he => (h.attended e he).imp_right .inr⟩
  obtain ⟨hmerges, hsame, hsettled⟩ := hp.rebuildFrom h.visits hrun
  refine ⟨hmerges, fun e he => hsettled e ?_⟩
  rwa [IsRegistered, ← hsame.dependents]

end VersionedEGraph

end Sage
