import Mathlib.Data.Set.Insert
import Sage.Infer.Egraph

/-!
# Inference — what a version sees

The egraph keeps a version as a difference from its ancestors.  `View` is the flat state a
version sees through them: one parent map, one bound for each type, and so on.  Every mutation
of a leaf acts on its view alone, as the update its name says, and the other live versions
see what they saw.

* `view_setParent`, `view_setBound`, … — each write, as an update of the view.
* `view_branchFrom` — a new child sees what its parent sees, with nothing pending of its own.
* `view_extend` — after a collapse the parent sees what the child saw.
* `Confined v` — a change of the egraph confined to the version `v`, which no other live leaf
  or branch sees (`Confined.layers_of_leaf`); `Local v` keeps its chains of pointers finite too.
-/

namespace Sage

/-- The flat state of one version. -/
structure View where
  parent : Ty → Ty
  bound : Ty → Bound
  domain : Ty → Option InferDomain
  ceiling : InferVarIndex → Option Universe
  dependents : Ty → Set Ty
  worklist : List Ty
  wakes : Set InferVarIndex
  revision : UInt64

namespace View

/-- The view through a list of layers, nearest first; what is pending and the revision are the
nearest layer's. -/
def ofLayers (layers : List VersionState) : View where
  parent ty := (layers.findSome? fun s => s.parents.lookup ty).getD ty
  bound ty := (layers.findSome? fun s => s.bounds.lookup ty).getD .none
  domain ty := layers.findSome? fun s => s.domains.lookup ty
  ceiling index := layers.findSome? fun s => s.universeCeilings.lookup index
  dependents ty := {d | ∃ s ∈ layers, d ∈ (s.dependents.lookup ty).getD []}
  worklist := (layers.head?.map VersionState.worklist).getD []
  wakes := {i | ∃ s ∈ layers.head?, i ∈ s.wakes}
  revision := (layers.head?.map VersionState.semanticRevision).getD 0

theorem findSome?_cons_eq_or {α β : Type} (f : α → Option β) (a : α) (l : List α) :
    (a :: l).findSome? f = (f a).or (l.findSome? f) := by
  rw [List.findSome?_cons]
  cases f a <;> rfl

theorem ofLayers_cons (s : VersionState) (ls : List VersionState) :
    ofLayers (s :: ls) =
      { parent := fun ty =>
          ((s.parents.lookup ty).or (ls.findSome? fun s => s.parents.lookup ty)).getD ty
        bound := fun ty =>
          ((s.bounds.lookup ty).or (ls.findSome? fun s => s.bounds.lookup ty)).getD .none
        domain := fun ty => (s.domains.lookup ty).or (ls.findSome? fun s => s.domains.lookup ty)
        ceiling := fun index =>
          (s.universeCeilings.lookup index).or
            (ls.findSome? fun s => s.universeCeilings.lookup index)
        dependents := fun ty =>
          {d | d ∈ (s.dependents.lookup ty).getD []} ∪ (ofLayers ls).dependents ty
        worklist := s.worklist
        wakes := {i | i ∈ s.wakes}
        revision := s.semanticRevision } := by
  simp only [ofLayers, findSome?_cons_eq_or, View.mk.injEq, true_and]
  refine ⟨?_, by simp, by simp, by simp⟩
  funext ty
  ext d
  simp

end View

namespace VersionedEGraph

/-- One state for each version of a well-formed tree. -/
structure WF (g : VersionedEGraph) : Prop where
  versions : g.versions.WF
  length : g.states.length = g.versions.nodes.length

def view (g : VersionedEGraph) (version : Version) : View := .ofLayers (g.layers version)

variable {g : VersionedEGraph} {v w : Version}

theorem view_parent (ty : Ty) : (g.view v).parent ty = g.getParent v ty := rfl

theorem view_bound (ty : Ty) : (g.view v).bound ty = g.getBound v ty := rfl

/-! ### Layers -/

theorem state_modifyState (f : VersionState → VersionState) (h : v < g.states.length) :
    (g.modifyState v f).state v = f (g.state v) := by
  simp [state, modifyState, List.getElem?_eq_getElem h]

theorem state_modifyState_of_ne (f : VersionState → VersionState) (h : w ≠ v) :
    (g.modifyState v f).state w = g.state w := by
  have : v ≠ w := fun e => h e.symm
  simp [state, modifyState, this]

/-- The layers below a version's own. -/
def lowerLayers (g : VersionedEGraph) (version : Version) : List VersionState :=
  (g.versions.parent version).elim [] g.layers

theorem layers_eq (h : g.versions.Ordered) (v : Version) :
    g.layers v = g.state v :: g.lowerLayers v := by
  rw [layers, VersionTree.ancestors_eq h, lowerLayers]
  cases g.versions.parent v <;> rfl

/-- Layers depend on the states of the ancestors only. -/
theorem layers_congr {g' : VersionedEGraph} (ha : g'.versions.ancestors w = g.versions.ancestors w)
    (hs : ∀ u ∈ g.versions.ancestors w, g'.state u = g.state u) : g'.layers w = g.layers w := by
  rw [layers, layers, ha]
  exact List.map_congr_left hs

theorem layers_modifyState (h : g.WF) (hv : v < g.states.length)
    (f : VersionState → VersionState) :
    (g.modifyState v f).layers v = f (g.state v) :: g.lowerLayers v := by
  have hord : (g.modifyState v f).versions.Ordered := h.versions.ordered
  rw [layers_eq hord, state_modifyState f hv, lowerLayers, lowerLayers]
  cases hp : g.versions.parent v with
  | none => simp [modifyState, hp]
  | some p =>
      have hlt := h.versions.ordered v p hp
      have : (g.modifyState v f).versions.parent v = some p := hp
      rw [this]
      refine congrArg _ (layers_congr rfl fun u hu => state_modifyState_of_ne f ?_)
      have hle := VersionTree.le_of_mem_ancestors h.versions.ordered hu
      rintro rfl
      exact absurd hlt (Nat.not_lt.mpr hle)

/-! ### Writes -/

section Write

variable (h : g.WF) (hv : v < g.states.length)

include h in
theorem view_eq : g.view v = .ofLayers (g.state v :: g.lowerLayers v) := by
  rw [view, layers_eq h.versions.ordered]

include h hv

theorem view_modifyState (f : VersionState → VersionState) :
    (g.modifyState v f).view v = .ofLayers (f (g.state v) :: g.lowerLayers v) := by
  rw [view, layers_modifyState h hv]

theorem view_setParent (ty parent : Ty) :
    (g.setParent v ty parent).view v =
      { g.view v with parent := Function.update (g.view v).parent ty parent } := by
  rw [setParent, view_modifyState h hv, view_eq h]
  simp only [View.ofLayers_cons, View.mk.injEq, and_true]
  funext t
  by_cases ht : t = ty
  · subst ht; simp
  · simp [ht, AList.lookup_insert_ne ht]

theorem view_setBound (ty : Ty) (bound : Bound) :
    (g.modifyState v fun s => { s with bounds := s.bounds.insert ty bound }).view v =
      { g.view v with bound := Function.update (g.view v).bound ty bound } := by
  rw [view_modifyState h hv, view_eq h]
  simp only [View.ofLayers_cons, View.mk.injEq, and_true, true_and]
  funext t
  by_cases ht : t = ty
  · subst ht; simp
  · simp [ht, AList.lookup_insert_ne ht]

theorem view_setDomain (ty : Ty) (domain : InferDomain) :
    (g.modifyState v fun s => { s with domains := s.domains.insert ty domain }).view v =
      { g.view v with domain := Function.update (g.view v).domain ty (some domain) } := by
  rw [view_modifyState h hv, view_eq h]
  simp only [View.ofLayers_cons, View.mk.injEq, and_true, true_and]
  funext t
  by_cases ht : t = ty
  · subst ht; simp
  · simp [ht, AList.lookup_insert_ne ht]

theorem view_setCeiling (index : InferVarIndex) (u : Universe) :
    (g.modifyState v fun s =>
      { s with universeCeilings := s.universeCeilings.insert index u }).view v =
      { g.view v with ceiling := Function.update (g.view v).ceiling index (some u) } := by
  rw [view_modifyState h hv, view_eq h]
  simp only [View.ofLayers_cons, View.mk.injEq, and_true, true_and]
  funext t
  by_cases ht : t = index
  · subst ht; simp
  · simp [ht, AList.lookup_insert_ne ht]

theorem view_setWorklist (worklist : List Ty) :
    (g.modifyState v fun s => { s with worklist := worklist }).view v =
      { g.view v with worklist := worklist } := by
  rw [view_modifyState h hv, view_eq h]
  simp only [View.ofLayers_cons]

theorem view_pushWorklist (ty : Ty) :
    (g.modifyState v fun s => { s with worklist := s.worklist ++ [ty] }).view v =
      { g.view v with worklist := (g.view v).worklist ++ [ty] } := by
  rw [view_modifyState h hv, view_eq h]
  simp only [View.ofLayers_cons]

theorem view_markSemanticChange (wake : Option InferVarIndex) :
    (g.markSemanticChange v wake).view v =
      { g.view v with
        wakes := (g.view v).wakes ∪ {i | wake = some i}
        revision := (g.view v).revision + 1 } := by
  rw [markSemanticChange, view_modifyState h hv, view_eq h]
  simp only [View.ofLayers_cons, View.mk.injEq, and_true, true_and]
  ext i
  cases wake <;> simp [eq_comm]

theorem view_addDependent (argTy parentTy : Ty) :
    (g.addDependent v argTy parentTy).view v =
      { g.view v with
        dependents := Function.update (g.view v).dependents argTy
          (insert parentTy ((g.view v).dependents argTy)) } := by
  rw [addDependent, view_modifyState h hv, view_eq h]
  simp only [View.ofLayers_cons, View.mk.injEq, and_true, true_and]
  funext t
  by_cases ht : t = argTy
  · subst ht
    ext d; simp [or_assoc]
  · ext d; simp [ht, AList.lookup_insert_ne ht]

end Write

/-! ### Operations on one view -/

@[simp] theorem modifyState_versions (f : VersionState → VersionState) :
    (g.modifyState v f).versions = g.versions := rfl

@[simp] theorem modifyState_placeholderUniverses (f : VersionState → VersionState) :
    (g.modifyState v f).placeholderUniverses = g.placeholderUniverses := rfl

@[simp] theorem modifyState_length (f : VersionState → VersionState) :
    (g.modifyState v f).states.length = g.states.length := by simp [modifyState]

theorem WF.modifyState (h : g.WF) (f : VersionState → VersionState) : (g.modifyState v f).WF :=
  ⟨h.versions, by simpa using h.length⟩

theorem setOf_some_eq (index : InferVarIndex) :
    {i | some index = some i} = ({index} : Set InferVarIndex) := by
  ext i; simp [eq_comm]

section Operation

variable (h : g.WF) (hv : v < g.states.length)
include h hv

theorem view_lowerUniverse (index : InferVarIndex) (ceiling : Universe) :
    (g.lowerUniverse v index ceiling).view v =
      if g.currentUniverse v index ≤ ceiling then g.view v
      else
        { g.view v with
          ceiling := Function.update (g.view v).ceiling index (some ceiling)
          wakes := (g.view v).wakes ∪ {index}
          revision := (g.view v).revision + 1 } := by
  rw [lowerUniverse]
  split
  · rfl
  · rw [view_markSemanticChange (h.modifyState _) (by simpa using hv), view_setCeiling h hv]
    rw [setOf_some_eq]

theorem view_setDomainIn (ty : Ty) {index : InferVarIndex} (hroot : g.find v ty = .inferVar index)
    (domain : InferDomain) :
    (g.setDomainIn v ty domain).view v =
      if g.effectiveDomain v (.inferVar index) = some domain then g.view v
      else
        { g.view v with
          domain := Function.update (g.view v).domain (.inferVar index) (some domain)
          wakes := (g.view v).wakes ∪ {index}
          revision := (g.view v).revision + 1 } := by
  simp only [setDomainIn, hroot]
  split
  · rfl
  · rw [view_markSemanticChange (h.modifyState _) (by simpa using hv), view_setDomain h hv]
    rw [setOf_some_eq]

theorem view_setBoundIn (index : InferVarIndex) (bound : Bound) :
    (g.setBoundIn v (.inferVar index) bound).view v =
      if g.getBound v (.inferVar index) = bound then g.view v
      else
        { g.view v with
          bound := Function.update (g.view v).bound (.inferVar index) bound
          wakes := (g.view v).wakes ∪ {index}
          revision := (g.view v).revision + 1 } := by
  rw [setBoundIn]
  split
  · rfl
  · rw [view_markSemanticChange (h.modifyState _) (by simpa using hv), view_setBound h hv]
    rw [setOf_some_eq]

omit h hv in
theorem union_of_eq {left right : Ty} (he : g.find v left = g.find v right) :
    g.union v left right = (g.find v left, g) := by
  simp [union, he]

omit h hv in
theorem union_fst {left right : Ty} (hne : g.find v left ≠ g.find v right) :
    (g.union v left right).1 = (unionEdge (g.find v left) (g.find v right)).2 := by
  simp [union, hne]

/-- A union of two classes is one new pointer between their representatives. -/
theorem view_union {left right : Ty} (hne : g.find v left ≠ g.find v right) :
    (g.union v left right).2.view v =
      { g.view v with
        parent := Function.update (g.view v).parent
          (unionEdge (g.find v left) (g.find v right)).1
          (unionEdge (g.find v left) (g.find v right)).2
        worklist := (g.view v).worklist ++ [(unionEdge (g.find v left) (g.find v right)).1]
        wakes := (g.view v).wakes ∪
          {i | changedVar (unionEdge (g.find v left) (g.find v right)).1 = some i}
        revision := (g.view v).revision + 1 } := by
  have hset : ∀ child parent, (g.setParent v child parent).WF ∧
      v < (g.setParent v child parent).states.length := fun _ _ =>
    ⟨h.modifyState _, by simpa [setParent] using hv⟩
  simp only [union, hne, if_false]
  rw [view_markSemanticChange ((hset _ _).1.modifyState _) (by simpa using (hset _ _).2),
    view_pushWorklist (hset _ _).1 (hset _ _).2, view_setParent h hv]

end Operation

/-! ### Representatives -/

/-- A moved type has a recorded pointer in some layer. -/
theorem mem_keys_of_moved {ty : Ty} (h : g.getParent v ty ≠ ty) :
    ty ∈ (g.layers v).flatMap fun s => s.parents.keys := by
  rw [getParent] at h
  cases hf : (g.layers v).findSome? fun s => s.parents.lookup ty with
  | none => simp [hf] at h
  | some parent =>
      obtain ⟨s, hs, hl⟩ := List.exists_of_findSome?_eq_some hf
      refine List.mem_flatMap.mpr ⟨s, hs, ?_⟩
      exact AList.lookup_isSome.mp (by rw [hl]; rfl)

/-- When every chain of pointers is finite, `find` arrives at the representative. -/
theorem find_reaches (h : Chase.Grounded (g.getParent v)) (ty : Ty) :
    Chase.Reaches (g.getParent v) ty (g.find v ty) := by
  obtain ⟨root, hroot⟩ := h ty
  have := Chase.chase_eq_of_reaches (fun _ => mem_keys_of_moved) (Nat.le_refl (g.chainBound v)) hroot
  rwa [find, this]

theorem find_eq_iff (h : Chase.Grounded (g.getParent v)) {ty root : Ty} :
    g.find v ty = root ↔ Chase.Reaches (g.getParent v) ty root :=
  ⟨fun e => e ▸ find_reaches h ty, fun hr => (find_reaches h ty).unique hr⟩

theorem getParent_find (h : Chase.Grounded (g.getParent v)) (ty : Ty) :
    g.getParent v (g.find v ty) = g.find v ty :=
  (find_reaches h ty).is_root

theorem find_of_root {ty : Ty} (h : g.getParent v ty = ty) : g.find v ty = ty :=
  Chase.chase_of_root h

theorem find_find (h : Chase.Grounded (g.getParent v)) (ty : Ty) :
    g.find v (g.find v ty) = g.find v ty :=
  find_of_root (getParent_find h ty)

theorem find_getParent (h : Chase.Grounded (g.getParent v)) (ty : Ty) :
    g.find v (g.getParent v ty) = g.find v ty :=
  (find_eq_iff h).mpr (Chase.reaches_parent.mpr (find_reaches h ty))

theorem find_congr {g' : VersionedEGraph} (h : Chase.Grounded (g.getParent v))
    (hp : g'.getParent v = g.getParent v) : g'.find v = g.find v := by
  funext ty
  refine (find_eq_iff (hp ▸ h)).mpr ?_
  rw [hp]
  exact find_reaches h ty

theorem getParent_setParent (h : g.WF) (hv : v < g.states.length) (ty parent : Ty) :
    (g.setParent v ty parent).getParent v = Function.update (g.getParent v) ty parent :=
  congrArg View.parent (view_setParent h hv ty parent)

/-- A write that leaves the recorded pointers alone leaves every parent alone. -/
theorem getParent_modifyState (h : g.WF) (hv : v < g.states.length)
    {f : VersionState → VersionState} (hf : (f (g.state v)).parents = (g.state v).parents) :
    (g.modifyState v f).getParent v = g.getParent v := by
  funext ty
  rw [getParent, getParent, layers_modifyState h hv, layers_eq h.versions.ordered]
  simp only [View.findSome?_cons_eq_or, hf]

/-! ### Changes confined to one version -/

/-- A change of the egraph confined to the version `v`: the tree keeps its shape, the other
states are untouched, and new variables belong to `v`. -/
structure Confined (v : Version) (g g' : VersionedEGraph) : Prop where
  parent : ∀ w, g'.versions.parent w = g.versions.parent w
  isLive : ∀ w, g'.versions.isLive w = g.versions.isLive w
  children : ∀ w, g'.versions.children w = g.versions.children w
  state : ∀ w, w ≠ v → g'.state w = g.state w
  varInfos : ∃ infos, g'.versions.varInfos = g.versions.varInfos ++ infos ∧
    ∀ info ∈ infos, info.owner = v
  placeholderUniverse_eq : g'.placeholderUniverse = g.placeholderUniverse
  length : g'.states.length = g.states.length
  wf : g.WF → g'.WF

/-- A confined change after which chains of pointers are still finite. -/
structure Local (v : Version) (g g' : VersionedEGraph) : Prop extends Confined v g g' where
  grounded : g.WF → v < g.states.length → Chase.Grounded (g.getParent v) →
    Chase.Grounded (g'.getParent v)

namespace Confined

theorem refl (v : Version) (g : VersionedEGraph) : Confined v g g :=
  ⟨fun _ => rfl, fun _ => rfl, fun _ => rfl, fun _ _ => rfl, ⟨[], by simp, by simp⟩, rfl, rfl, id⟩

theorem trans {g g' g'' : VersionedEGraph} (h : Confined v g g') (h' : Confined v g' g'') :
    Confined v g g'' where
  parent w := (h'.parent w).trans (h.parent w)
  isLive w := (h'.isLive w).trans (h.isLive w)
  children w := (h'.children w).trans (h.children w)
  state w hw := (h'.state w hw).trans (h.state w hw)
  varInfos := by
    obtain ⟨is, hi, ho⟩ := h.varInfos
    obtain ⟨is', hi', ho'⟩ := h'.varInfos
    refine ⟨is ++ is', by rw [hi', hi, List.append_assoc], fun info hinfo => ?_⟩
    rcases List.mem_append.mp hinfo with hinfo | hinfo
    · exact ho info hinfo
    · exact ho' info hinfo
  placeholderUniverse_eq := h'.placeholderUniverse_eq.trans h.placeholderUniverse_eq
  length := h'.length.trans h.length
  wf hg := h'.wf (h.wf hg)

theorem modifyState (g : VersionedEGraph) (v : Version) (f : VersionState → VersionState) :
    Confined v g (g.modifyState v f) where
  parent _ := rfl
  isLive _ := rfl
  children _ := rfl
  state _ hw := state_modifyState_of_ne f hw
  varInfos := ⟨[], by simp [VersionedEGraph.modifyState], by simp⟩
  placeholderUniverse_eq := rfl
  length := by simp [VersionedEGraph.modifyState]
  wf hg := ⟨hg.versions, by simpa [VersionedEGraph.modifyState] using hg.length⟩

variable {g' : VersionedEGraph}

theorem ancestors (h : Confined v g g') (hg : g.versions.WF) (w : Nat) :
    g'.versions.ancestors w = g.versions.ancestors w :=
  VersionTree.ancestors_of_same_parent hg h.parent w

/-- The frame: a version that does not descend from `v` reads the same layers. -/
theorem layers (h : Confined v g g') (hg : g.versions.WF) (hw : v ∉ g.versions.ancestors w) :
    g'.layers w = g.layers w :=
  layers_congr (h.ancestors hg w) fun u hu => h.state u fun e => hw (e ▸ hu)

/-- A mutation of a leaf is invisible to every other live version. -/
theorem layers_of_leaf (h : Confined v g g') (hg : g.versions.WF)
    (hleaf : g.versions.children v = []) (hw : g.versions.isLive w = true) (hne : w ≠ v) :
    g'.layers w = g.layers w :=
  h.layers hg (hg.notMem_ancestors_of_leaf hleaf hw hne)

end Confined

namespace Local

theorem refl (v : Version) (g : VersionedEGraph) : Local v g g :=
  ⟨Confined.refl v g, fun _ _ => id⟩

theorem trans {g g' g'' : VersionedEGraph} (h : Local v g g') (h' : Local v g' g'') :
    Local v g g'' where
  toConfined := h.toConfined.trans h'.toConfined
  grounded hg hv hp := h'.grounded (h.wf hg) (h.length ▸ hv) (h.grounded hg hv hp)

/-- A write to the state of `v`, given what it does to the pointers of `v`. -/
theorem of_modifyState {f : VersionState → VersionState}
    (hf : g.WF → v < g.states.length → Chase.Grounded (g.getParent v) →
      Chase.Grounded ((g.modifyState v f).getParent v)) : Local v g (g.modifyState v f) :=
  ⟨Confined.modifyState g v f, hf⟩

/-- A write to the state of `v` that leaves its pointers alone. -/
theorem modifyState (g : VersionedEGraph) (v : Version) (f : VersionState → VersionState)
    (hf : (f (g.state v)).parents = (g.state v).parents) : Local v g (g.modifyState v f) :=
  of_modifyState fun hg hv hp => by rwa [getParent_modifyState hg hv hf]

/-- Pointing a type at a root other than itself. -/
theorem setParent {ty root : Ty}
    (h : Chase.Grounded (g.getParent v) → g.getParent v root = root ∧ root ≠ ty) :
    Local v g (g.setParent v ty root) :=
  of_modifyState fun hg hv hp => by
    have := getParent_setParent hg hv ty root
    rw [VersionedEGraph.setParent] at this
    rw [this]
    exact Chase.grounded_update hp (h hp).1 (h hp).2

/-- The tree after an allocation, before the variable's ceiling is recorded. -/
theorem withVersions_alloc (hg : g.WF) (hv : g.versions.isLive v = true) (u : Universe)
    (d : InferDomain) :
    ({ g with versions := (g.versions.allocVarInDomain v u d).2 } : VersionedEGraph).WF ∧
      ({ g with versions := (g.versions.allocVarInDomain v u d).2 } : VersionedEGraph).layers v =
        g.layers v := by
  refine ⟨⟨hg.versions.allocVarInDomain hv, ?_⟩, layers_congr ?_ fun _ _ => rfl⟩
  · simpa [VersionTree.allocVarInDomain, VersionTree.modifyNode] using hg.length
  · exact VersionTree.ancestors_of_same_parent hg.versions VersionTree.allocVarInDomain_parent v

theorem view_allocVarInDomain (hg : g.WF) (hv : g.versions.isLive v = true) (u : Universe)
    (d : InferDomain) :
    (g.allocVarInDomain v u d).2.view v =
      { g.view v with
        ceiling := Function.update (g.view v).ceiling g.versions.varInfos.length (some u) } := by
  obtain ⟨hwf, hlayers⟩ := withVersions_alloc hg hv u d
  have hlt : v < g.states.length := hg.length ▸ VersionTree.lt_length_of_isLive hv
  have hview := view_setCeiling hwf hlt g.versions.varInfos.length u
  rw [show ({ g with versions := (g.versions.allocVarInDomain v u d).2 } : VersionedEGraph).view v =
    g.view v by rw [view, hlayers, view]] at hview
  exact hview

theorem allocVarInDomain (g : VersionedEGraph) (v : Version) (u : Universe) (d : InferDomain)
    (hv : g.versions.isLive v = true) : Local v g (g.allocVarInDomain v u d).2 where
  parent w := VersionTree.allocVarInDomain_parent w
  isLive w := VersionTree.allocVarInDomain_isLive w
  children w := VersionTree.allocVarInDomain_children w
  state _ hw := state_modifyState_of_ne _ hw
  varInfos := ⟨[⟨v, u, d⟩], rfl, by simp⟩
  placeholderUniverse_eq := rfl
  length := by simp [VersionedEGraph.modifyState, VersionedEGraph.allocVarInDomain]
  wf hg := (withVersions_alloc hg hv u d).1.modifyState _
  grounded hg _ hp := by
    rw [show (g.allocVarInDomain v u d).2.getParent v = g.getParent v by
      funext ty
      rw [← view_parent, view_allocVarInDomain hg hv, view_parent]]
    exact hp

end Local

theorem lt_length_of_isLive (h : g.WF) (hv : g.versions.isLive v = true) :
    v < g.states.length :=
  h.length ▸ VersionTree.lt_length_of_isLive hv

/-! ### Branching -/

section Branch

variable {parent : Nat}

@[simp] theorem branchFrom_fst : (g.branchFrom parent).1 = g.versions.nodes.length := rfl

theorem WF.branchFrom (h : g.WF) (hlive : g.versions.isLive parent = true) :
    (g.branchFrom parent).2.WF where
  versions := h.versions.branchFrom hlive
  length := by
    simp [VersionedEGraph.branchFrom, VersionTree.branchFrom, VersionTree.modifyNode, h.length]

theorem branchFrom_state (h : g.WF) (w : Nat) :
    (g.branchFrom parent).2.state w =
      if w = g.versions.nodes.length then
        { (default : VersionState) with semanticRevision := g.semanticRevision parent }
      else g.state w := by
  rw [← h.length]
  simp only [VersionedEGraph.branchFrom, state, List.getElem?_append]
  split
  · rw [if_neg (by omega)]
  · split
    · subst_vars; simp
    · rw [List.getElem?_eq_none (by simp; omega), List.getElem?_eq_none (by omega)]

/-- Every version of the old tree reads the same layers after a branch. -/
theorem branchFrom_layers (h : g.WF) (hlive : g.versions.isLive parent = true) {w : Nat}
    (hw : w < g.versions.nodes.length) : (g.branchFrom parent).2.layers w = g.layers w := by
  refine layers_congr ?_ fun u hu => ?_
  · exact (VersionTree.branchFrom_ancestors h.versions hlive w).trans (if_neg (by omega))
  · have := VersionTree.le_of_mem_ancestors h.versions.ordered hu
    rw [branchFrom_state h, if_neg (by omega)]

theorem branchFrom_layers_child (h : g.WF) (hlive : g.versions.isLive parent = true) :
    (g.branchFrom parent).2.layers g.versions.nodes.length =
      { (default : VersionState) with semanticRevision := g.semanticRevision parent } ::
        g.layers parent := by
  have ha := VersionTree.branchFrom_ancestors h.versions hlive g.versions.nodes.length
  rw [if_pos rfl] at ha
  rw [layers, show (g.branchFrom parent).2.versions = (g.versions.branchFrom parent).2 from rfl,
    ha, List.map_cons, branchFrom_state h, if_pos rfl]
  refine congrArg _ (List.map_congr_left fun u hu => ?_)
  have hle := VersionTree.le_of_mem_ancestors h.versions.ordered hu
  have hlt : parent < g.versions.nodes.length := VersionTree.lt_length_of_isLive hlive
  rw [branchFrom_state h, if_neg (by omega)]

/-- A new child sees what its parent sees, with nothing pending of its own. -/
theorem view_branchFrom (h : g.WF) (hlive : g.versions.isLive parent = true) :
    (g.branchFrom parent).2.view g.versions.nodes.length =
      { g.view parent with worklist := [], wakes := ∅ } := by
  rw [view, branchFrom_layers_child h hlive, View.ofLayers_cons, view, View.ofLayers,
    layers_eq h.versions.ordered]
  simp [default, semanticRevision]

end Branch

/-! ### Collapsing and discarding -/

theorem lookup_union {α β : Type} [DecidableEq α] (s t : AList fun _ : α => β) (a : α) :
    (s ∪ t).lookup a = (s.lookup a).or (t.lookup a) := by
  by_cases h : a ∈ s
  · rw [AList.lookup_union_left h]
    obtain ⟨b, hb⟩ := Option.isSome_iff_exists.mp (AList.lookup_isSome.mpr h)
    simp [hb]
  · rw [AList.lookup_union_right h, AList.lookup_eq_none.mpr h, Option.none_or]

theorem mem_lookup_foldl_union {α β : Type} [DecidableEq α] [DecidableEq β]
    (entries : List ((_ : α) × List β)) (acc : AList fun _ : α => List β) (a : α) (b : β) :
    b ∈ ((entries.foldl
        (fun acc entry => acc.insert entry.1 (((acc.lookup entry.1).getD []) ∪ entry.2))
        acc).lookup a).getD [] ↔
      b ∈ (acc.lookup a).getD [] ∨ ∃ bs, ⟨a, bs⟩ ∈ entries ∧ b ∈ bs := by
  induction entries generalizing acc with
  | nil => simp
  | cons entry entries ih =>
      obtain ⟨k, bs⟩ := entry
      rw [List.foldl_cons, ih]
      by_cases hk : a = k
      · subst hk
        simp only [AList.lookup_insert, Option.getD_some, List.mem_union_iff, List.mem_cons,
          Sigma.mk.injEq, heq_eq_eq, true_and]
        constructor
        · rintro ((h | h) | ⟨cs, h, hb⟩)
          · exact .inl h
          · exact .inr ⟨bs, .inl rfl, h⟩
          · exact .inr ⟨cs, .inr h, hb⟩
        · rintro (h | ⟨cs, rfl | h, hb⟩)
          · exact .inl (.inl h)
          · exact .inl (.inr hb)
          · exact .inr ⟨cs, h, hb⟩
      · rw [AList.lookup_insert_ne hk]
        simp [hk]

/-- The merged state stands for the two layers it came from. -/
theorem ofLayers_extend (p c : VersionState) (ls : List VersionState) :
    View.ofLayers (VersionState.extend p c :: ls) =
      { View.ofLayers (c :: p :: ls) with
        worklist := p.worklist ++ c.worklist
        wakes := {i | i ∈ p.wakes} ∪ {i | i ∈ c.wakes} } := by
  simp only [View.ofLayers_cons, VersionState.extend, lookup_union, View.findSome?_cons_eq_or,
    Option.or_assoc, View.mk.injEq, true_and, and_true]
  refine ⟨funext fun ty => ?_, by ext i; simp⟩
  ext d
  simp only [Set.mem_union, Set.mem_ofPred_eq, mem_lookup_foldl_union]
  have : (∃ bs, ⟨ty, bs⟩ ∈ c.dependents.entries ∧ d ∈ bs) ↔
      d ∈ (c.dependents.lookup ty).getD [] := by
    cases hl : c.dependents.lookup ty with
    | none =>
        simp only [Option.getD_none, List.not_mem_nil, iff_false, not_exists, not_and]
        rintro bs hbs -
        have := AList.mem_lookup_iff.mpr hbs
        simp [hl] at this
    | some cs =>
        constructor
        · rintro ⟨bs, hbs, hd⟩
          have := AList.mem_lookup_iff.mpr hbs
          rw [hl, Option.mem_some_iff] at this
          exact this ▸ hd
        · exact fun hd => ⟨cs, AList.mem_lookup_iff.mp hl, hd⟩
  rw [this]
  tauto

section Collapse

variable {child parent : Nat}

/-- What a collapse leaves behind. -/
structure Collapsed (g : VersionedEGraph) (child parent : Version) (g' : VersionedEGraph) :
    Prop where
  wf : g'.WF
  parent_eq : ∀ w, g'.versions.parent w = g.versions.parent w
  isLive : ∀ w, g'.versions.isLive w = true ↔ g.versions.isLive w = true ∧ w ≠ child
  children : ∀ w, g'.versions.isLive w = true →
    g'.versions.children w = if w = parent then [] else g.versions.children w
  varInfos : ∀ i : Nat, g'.versions.varInfos[i]? = g.versions.varInfos[i]?.map fun info =>
    if info.owner = child then { info with owner := parent } else info
  layers : ∀ w, g'.versions.isLive w = true → w ≠ parent → g'.layers w = g.layers w
  layers_parent :
    g'.layers parent = VersionState.extend (g.state parent) (g.state child) :: g.lowerLayers parent
  placeholders : g'.placeholderUniverses = g.placeholderUniverses

/-- A live version below `parent` is `parent` or its only child. -/
theorem CanCollapse.eq_of_mem_ancestors (h : g.WF) (hc : g.CanCollapse child parent) {w : Nat}
    (hw : g.versions.isLive w = true) (hm : parent ∈ g.versions.ancestors w) :
    w = parent ∨ w = child := by
  obtain ⟨-, -, -, hleaf, hsole⟩ := hc
  by_cases hwp : w = parent
  · exact .inl hwp
  · refine .inr (by_contra fun hwc => ?_)
    obtain ⟨c, hcm, hcw⟩ := h.versions.pruning.exists_child hw hm hwp
    rw [hsole, List.mem_singleton] at hcm
    subst hcm
    exact h.versions.notMem_ancestors_of_leaf hleaf hw hwc hcw

theorem collapsed (h : g.WF) (hc : g.CanCollapse child parent) :
    Collapsed g child parent (g.collapseInto child parent).2 := by
  obtain ⟨hlc, hlp, hpar, hleaf, hsole⟩ := id hc
  have hlt : parent < child := h.versions.ordered child parent hpar
  have hne : parent ≠ child := by omega
  have hpl : parent < g.states.length := lt_length_of_isLive h hlp
  have hre := h.versions.reownVariables (show child ≠ parent by omega) hlp
  obtain ⟨hwf, hlen, hinfos, hparents, -, hlive, hchildren⟩ :=
    hre.removed ((VersionTree.reownVariables_isLive child).trans hlc)
      ((VersionTree.reownVariables_parent child).trans hpar)
  have hanc : ∀ w : Nat, (g.versions.reownVariables child parent).ancestors w =
      g.versions.ancestors w := fun w =>
    VersionTree.ancestors_of_same_parent h.versions VersionTree.reownVariables_parent w
  have hlive' : ∀ w, (g.collapseInto child parent).2.versions.isLive w = true ↔
      g.versions.isLive w = true ∧ w ≠ child := fun w => by
    refine (hlive w).trans ?_
    rw [VersionTree.reownVariables_isLive, hanc]
    refine and_congr_right fun hw => ⟨?_, h.versions.notMem_ancestors_of_leaf hleaf hw⟩
    rintro hm rfl
    exact hm (VersionTree.self_mem_ancestors h.versions.ordered w)
  have hparents' : ∀ w, (g.collapseInto child parent).2.versions.parent w = g.versions.parent w :=
    fun w => (hparents w).trans (VersionTree.reownVariables_parent w)
  have hstate : ∀ w : Nat, w ≠ child → w ≠ parent →
      (g.collapseInto child parent).2.state w = g.state w := fun w hwc hwp => by
    refine (state_modifyState_of_ne _ hwp).trans (state_modifyState_of_ne _ hwc)
  have hanc' : ∀ w, (g.collapseInto child parent).2.versions.ancestors w =
      g.versions.ancestors w := fun w =>
    VersionTree.ancestors_of_same_parent h.versions hparents' w
  refine ⟨⟨hwf, ?_⟩, hparents', hlive', ?_, ?_, ?_, ?_, rfl⟩
  · refine Eq.trans ?_ hlen.symm
    simpa [collapseInto, modifyState, VersionTree.reownVariables, VersionTree.modifyNode]
      using h.length
  · intro w hw
    refine (hchildren w hw).trans ?_
    rw [VersionTree.reownVariables_children]
    by_cases hwp : w = parent
    · subst hwp; simp [hsole]
    · have : ¬ parent = w := fun e => hwp e.symm
      simp [hwp, this]
  · intro i
    refine (congrArg (·[i]?) hinfos).trans ?_
    exact VersionTree.getElem?_reownVariables_varInfos h.versions i
  · intro w hw hwp
    refine layers_congr (hanc' w) fun u hu => hstate u ?_ ?_
    · rintro rfl
      exact h.versions.notMem_ancestors_of_leaf hleaf ((hlive' w).mp hw).1 ((hlive' w).mp hw).2 hu
    · rintro rfl
      rcases hc.eq_of_mem_ancestors h ((hlive' w).mp hw).1 hu with e | e
      · exact hwp e
      · exact ((hlive' w).mp hw).2 e
  · have hord : (g.collapseInto child parent).2.versions.Ordered := hwf.ordered
    have hs : (g.collapseInto child parent).2.state parent =
        VersionState.extend (g.state parent) (g.state child) := by
      refine (state_modifyState (g := g.modifyState child fun _ => default) _ ?_).trans ?_
      · simpa [modifyState] using hpl
      · rw [state_modifyState_of_ne _ hne]
    rw [layers_eq hord, hs, lowerLayers, lowerLayers, hparents']
    cases hpp : g.versions.parent parent with
    | none => rfl
    | some q =>
        have hq := h.versions.ordered parent q hpp
        refine congrArg _ (layers_congr (hanc' q) fun u hu => ?_)
        have := VersionTree.le_of_mem_ancestors h.versions.ordered hu
        exact hstate u (by omega) (by omega)

/-- After a collapse the parent sees what the child saw, and owes both their pending work. -/
theorem Collapsed.view_parent {g' : VersionedEGraph} (h : g.WF)
    (hpar : g.versions.parent child = some parent) (hc : Collapsed g child parent g') :
    g'.view parent =
      { g.view child with
        worklist := (g.view parent).worklist ++ (g.view child).worklist
        wakes := (g.view parent).wakes ∪ (g.view child).wakes } := by
  have hchild : g.layers child = g.state child :: g.state parent :: g.lowerLayers parent := by
    rw [layers_eq h.versions.ordered, lowerLayers, hpar, ← layers_eq h.versions.ordered]
    rfl
  have hparent := layers_eq h.versions.ordered parent
  rw [view, hc.layers_parent, ofLayers_extend, view, view, hchild, hparent]
  simp only [View.ofLayers_cons]

end Collapse

section Discard

variable {version parent : Nat}

/-- What discarding a version leaves behind. -/
structure Discarded (g : VersionedEGraph) (version parent : Version) (g' : VersionedEGraph) :
    Prop where
  wf : g'.WF
  parent_eq : ∀ w, g'.versions.parent w = g.versions.parent w
  isLive : ∀ w, g'.versions.isLive w = true ↔
    g.versions.isLive w = true ∧ version ∉ g.versions.ancestors w
  children : ∀ w, g'.versions.isLive w = true → g'.versions.children w =
    if parent = w then (g.versions.children w).filter (· ≠ version) else g.versions.children w
  varInfos : g'.versions.varInfos = g.versions.varInfos
  layers : ∀ w, g'.versions.isLive w = true → g'.layers w = g.layers w
  placeholders : g'.placeholderUniverses = g.placeholderUniverses

theorem foldl_modifyState_spec (removed : List Version) (g : VersionedEGraph) :
    (removed.foldl (fun g version => g.modifyState version fun _ => default) g).versions =
        g.versions ∧
      (removed.foldl (fun g version => g.modifyState version fun _ => default) g).states.length =
        g.states.length ∧
      (removed.foldl (fun g version => g.modifyState version fun _ => default)
        g).placeholderUniverses = g.placeholderUniverses ∧
      ∀ w, w ∉ removed →
        (removed.foldl (fun g version => g.modifyState version fun _ => default) g).state w =
          g.state w := by
  induction removed generalizing g with
  | nil => simp
  | cons v removed ih =>
      obtain ⟨h₁, h₂, h₃, h₄⟩ := ih (g.modifyState v fun _ => default)
      refine ⟨h₁, h₂.trans (by simp [modifyState]), h₃, fun w hw => ?_⟩
      rw [List.mem_cons, not_or] at hw
      exact (h₄ w hw.2).trans (state_modifyState_of_ne _ hw.1)

theorem discarded (h : g.WF) (hlive : g.versions.isLive version = true)
    (hpar : g.versions.parent version = some parent) :
    Discarded g version parent (g.discard version) := by
  have hrem := h.versions.removed hlive hpar
  have hfold := foldl_modifyState_spec (g.versions.remove version).1
    { g with versions := (g.versions.remove version).2 }
  have hv : (g.discard version).versions = (g.versions.remove version).2 := hfold.1
  have hlen : (g.discard version).states.length = g.states.length := hfold.2.1
  refine ⟨⟨hv ▸ hrem.wf, ?_⟩, ?_, ?_, ?_, ?_, fun w hw => ?_, hfold.2.2.1⟩
  · rw [hlen, h.length, hv, hrem.length]
  · exact hv ▸ hrem.parent_eq
  · exact hv ▸ hrem.isLive
  · exact hv ▸ hrem.children
  · exact hv ▸ hrem.varInfos
  · rw [hv] at hw
    refine layers_congr ?_ fun u hu => hfold.2.2.2 u fun hm => ?_
    · exact VersionTree.ancestors_of_same_parent h.versions (hv ▸ hrem.parent_eq) w
    · exact ((hrem.isLive w).mp hw).2
        (VersionTree.mem_ancestors_trans h.versions.ordered (hrem.descends u hm) hu)

end Discard

end VersionedEGraph

end Sage
