import Sage.Infer.Frame

/-!
# Inference — what a transaction leaves behind

`Observation` is everything a caller can read of a live version: representatives, bounds,
domains, universes, the semantic revision, the visible variables, and the effects and rebuild
work still pending.  A variable the version cannot access has no domain and no universe here;
the source panics on it.

* `observe_confined` — a mutation of a leaf changes no other version's observation.
* `observe_branchFrom`, `observe_collapse`, `observe_discard` — the three lifecycle operations.
* `Aborted`, `Committed` — the two ends of a transaction: the parent observes what it observed,
  or what the probe observed.
-/

namespace Sage

open Loop

/-- What can be read of a version. -/
structure Observation where
  find : Ty → Ty
  bound : Ty → Bound
  domain : Ty → Option InferDomain
  ceiling : InferVarIndex → Option Universe
  revision : UInt64
  visible : List InferVarIndex
  pendingWakes : Set InferVarIndex
  pendingWork : List Ty

namespace VersionedEGraph

/-- The variable at the root of a class, where the version may access it. -/
def accessibleRoot (g : VersionedEGraph) (version : Version) (ty : Ty) : Option InferVarIndex :=
  match g.find version ty with
  | .inferVar index => if g.versions.canAccess version index then some index else none
  | _ => none

/-- The observation of a version; pending wakes and work are those of the version and of the
ancestors they will be published through. -/
def observe (g : VersionedEGraph) (version : Version) : Observation where
  find := g.find version
  bound := g.getBound version
  domain ty := (g.accessibleRoot version ty).bind fun _ => g.effectiveDomain version ty
  ceiling index :=
    if g.versions.canAccess version index then some (g.currentUniverse version index) else none
  revision := g.semanticRevision version
  visible := g.versions.visibleVariables version
  pendingWakes := {i | ∃ s ∈ g.layers version, i ∈ s.wakes}
  pendingWork := (g.layers version).reverse.flatMap VersionState.worklist

/-- A well-formed egraph whose live versions have finite chains of pointers. -/
structure Valid (g : VersionedEGraph) : Prop where
  wf : g.WF
  grounded : ∀ v, g.versions.isLive v = true → Chase.Grounded (g.getParent v)

theorem Valid.new : Valid .new where
  wf := ⟨VersionTree.WF.new, rfl⟩
  grounded v _ ty := by
    have hlayers : ∀ s ∈ VersionedEGraph.new.layers v, s.parents = ∅ := by
      intro s hs
      obtain ⟨u, -, rfl⟩ := List.mem_map.mp hs
      rcases u with _ | u <;> rfl
    refine ⟨ty, .root ?_⟩
    have : (VersionedEGraph.new.layers v).findSome? (fun s => s.parents.lookup ty) = none := by
      refine List.findSome?_eq_none_iff.mpr fun s hs => ?_
      rw [hlayers s hs]; rfl
    rw [getParent, this]; rfl

variable {g g' : VersionedEGraph} {v w w' : Version}

/-! ### When two versions look alike -/

/-- The parts of the variable table that two versions read agree. -/
structure SameVariables (g : VersionedEGraph) (w : Version) (g' : VersionedEGraph) (w' : Version) :
    Prop where
  access : ∀ i, g'.versions.canAccess w' i = g.versions.canAccess w i
  info : ∀ i, g.versions.canAccess w i = true →
    (g'.versions.getVariable i).creationUniverse = (g.versions.getVariable i).creationUniverse ∧
      (g'.versions.getVariable i).initialDomain = (g.versions.getVariable i).initialDomain
  visible : g'.versions.visibleVariables w' = g.versions.visibleVariables w

theorem accessibleRoot_eq_some {ty : Ty} {i : InferVarIndex} :
    g.accessibleRoot w ty = some i ↔
      g.find w ty = .inferVar i ∧ g.versions.canAccess w i = true := by
  rw [accessibleRoot]
  split
  · rename_i index hf
    by_cases hi : g.versions.canAccess w index = true
    · simp only [hi, if_true, Option.some.injEq, hf, Ty.inferVar.injEq]
      constructor
      · rintro rfl; exact ⟨rfl, hi⟩
      · exact fun h => h.1
    · simp only [hi, hf, Ty.inferVar.injEq]
      constructor
      · intro h; cases h
      · rintro ⟨rfl, h⟩; exact absurd h hi
  · rename_i hne
    constructor
    · intro h; cases h
    · rintro ⟨h, -⟩; exact absurd h (hne i)

theorem effectiveDomain_of_root {ty : Ty} {i : InferVarIndex} (h : g.find w ty = .inferVar i) :
    g.effectiveDomain w ty = some (((g.view w).domain (.inferVar i)).getD
      (g.versions.getVariable i).initialDomain) := by
  simp only [effectiveDomain]
  split
  · rename_i index hf
    obtain rfl : index = i := by simpa [hf] using h
    rw [← h]; rfl
  · rename_i hne
    exact absurd h (hne i)

/-- Versions that look alike are observed alike. -/
theorem observe_eq (hfind : g'.find w' = g.find w) (hbound : g'.getBound w' = g.getBound w)
    (hdomain : (g'.view w').domain = (g.view w).domain)
    (hceiling : (g'.view w').ceiling = (g.view w).ceiling)
    (hrevision : g'.semanticRevision w' = g.semanticRevision w)
    (hwakes : ∀ i, (∃ s ∈ g'.layers w', i ∈ s.wakes) ↔ ∃ s ∈ g.layers w, i ∈ s.wakes)
    (hwork : (g'.layers w').reverse.flatMap VersionState.worklist =
      (g.layers w).reverse.flatMap VersionState.worklist)
    (hs : SameVariables g w g' w') : g'.observe w' = g.observe w := by
  have hroot : ∀ ty, g'.accessibleRoot w' ty = g.accessibleRoot w ty := fun ty => by
    ext i
    rw [accessibleRoot_eq_some, accessibleRoot_eq_some, hfind, hs.access]
  simp only [observe, Observation.mk.injEq]
  refine ⟨hfind, hbound, funext fun ty => ?_, funext fun i => ?_, hrevision, hs.visible, ?_, hwork⟩
  · rw [hroot]
    cases hr : g.accessibleRoot w ty with
    | none => rfl
    | some i =>
        obtain ⟨hf, hi⟩ := accessibleRoot_eq_some.mp hr
        simp only [Option.bind_some]
        rw [effectiveDomain_of_root hf, effectiveDomain_of_root (hfind ▸ hf), hdomain,
          (hs.info i hi).2]
  · rw [hs.access]
    split
    · rename_i hi
      have hl : ∀ (g : VersionedEGraph) w, g.currentUniverse w i =
          ((g.view w).ceiling i).getD (g.versions.getVariable i).creationUniverse := fun _ _ => rfl
      rw [hl, hl, hceiling, (hs.info i hi).1]
    · rfl
  · ext i; exact hwakes i

/-- A version that reads the same layers and variables is observed as before. -/
theorem observe_of_layers (hg : g.WF) (hg' : g'.WF) (hl : g'.layers w = g.layers w)
    (hs : SameVariables g w g' w) : g'.observe w = g.observe w := by
  have hparent : g'.getParent w = g.getParent w := by
    funext ty; rw [getParent, getParent, hl]
  have hview : g'.view w = g.view w := by rw [view, view, hl]
  have hstate : g'.state w = g.state w := by
    have h := layers_eq hg.versions.ordered w
    have h' := layers_eq hg'.versions.ordered w
    rw [hl, h] at h'
    exact (List.cons.inj h').1.symm
  refine observe_eq ?_ (congrArg View.bound hview) (by rw [hview]) (by rw [hview]) ?_ ?_ ?_ hs
  · funext ty; rw [find, find, chainBound, chainBound, hl, hparent]
  · rw [semanticRevision, semanticRevision, hstate]
  · intro i; rw [hl]
  · rw [hl]

/-! ### Mutations -/

theorem getElem?_of_canAccess {i : InferVarIndex} (h : g.versions.canAccess w i = true) :
    ∃ info, g.versions.varInfos[i]? = some info ∧ g.versions.isAncestor info.owner w = true := by
  rw [VersionTree.canAccess] at h
  cases hi : g.versions.varInfos[i]? with
  | none => simp [hi] at h
  | some info => exact ⟨info, rfl, by simpa [hi] using h⟩

/-- Variables allocated by `v` are invisible to a version that does not descend from `v`. -/
theorem SameVariables.of_append {infos : List VarInfo}
    (hanc : g'.versions.ancestors w = g.versions.ancestors w)
    (hlive : ∀ u ∈ g.versions.ancestors w, g'.versions.isLive u = g.versions.isLive u)
    (hi : g'.versions.varInfos = g.versions.varInfos ++ infos)
    (ho : ∀ info ∈ infos, info.owner = v) (hw : v ∉ g.versions.ancestors w) :
    SameVariables g w g' w := by
  have hnew : ∀ (i : Nat) info, g'.versions.varInfos[i]? = some info →
      g'.versions.isAncestor info.owner w = true → g.versions.varInfos[i]? = some info := by
    intro i info hinfo ha
    rw [hi, List.getElem?_append] at hinfo
    split at hinfo
    · exact hinfo
    · have := ho info (List.mem_of_getElem? hinfo)
      rw [VersionTree.isAncestor, hanc, this] at ha
      exact absurd (by simpa using ha) hw
  have hold : ∀ {i : Nat} {info}, g.versions.varInfos[i]? = some info →
      g'.versions.varInfos[i]? = some info := by
    intro i info hinfo
    have hlt := (List.getElem?_eq_some_iff.mp hinfo).1
    rw [hi, List.getElem?_append_left hlt, hinfo]
  have hacc : ∀ info : VarInfo, g'.versions.isAncestor info.owner w =
      g.versions.isAncestor info.owner w := fun info => by
    rw [VersionTree.isAncestor, VersionTree.isAncestor, hanc]
  refine ⟨fun i => ?_, fun i h => ?_, ?_⟩
  · rw [Bool.eq_iff_iff]
    constructor
    · intro h
      obtain ⟨info, hinfo, ha⟩ := getElem?_of_canAccess h
      rw [VersionTree.canAccess, hnew i info hinfo ha]
      simpa [hacc] using ha
    · intro h
      obtain ⟨info, hinfo, ha⟩ := getElem?_of_canAccess h
      rw [VersionTree.canAccess, hold hinfo]
      simpa [hacc] using ha
  · obtain ⟨info, hinfo, -⟩ := getElem?_of_canAccess h
    rw [VersionTree.getVariable, VersionTree.getVariable, hold hinfo, hinfo]
    exact ⟨rfl, rfl⟩
  · have hpred : ∀ i : Nat,
        (g'.versions.varInfos[i]?.any fun info =>
          g'.versions.isLive info.owner && g'.versions.isAncestor info.owner w) =
        g.versions.varInfos[i]?.any fun info =>
          g.versions.isLive info.owner && g.versions.isAncestor info.owner w := fun i => by
      have hlive' : ∀ info : VarInfo, g.versions.isAncestor info.owner w = true →
          g'.versions.isLive info.owner = g.versions.isLive info.owner := fun info h =>
        hlive _ (by simpa [VersionTree.isAncestor] using h)
      rw [Bool.eq_iff_iff]
      simp only [Option.any_eq_true, Bool.and_eq_true]
      constructor
      · rintro ⟨info, hinfo, hl, ha⟩
        rw [hacc] at ha
        exact ⟨info, hnew i info hinfo (by rwa [hacc]), by rwa [← hlive' info ha], ha⟩
      · rintro ⟨info, hinfo, hl, ha⟩
        exact ⟨info, hold hinfo, by rwa [hlive' info ha], by rwa [hacc]⟩
    rw [VersionTree.visibleVariables, VersionTree.visibleVariables, hi, List.length_append,
      List.range_add, List.filter_append]
    simp only [← hi, hpred]
    refine (congrArg _ ?_).trans (List.append_nil _)
    refine List.filter_eq_nil_iff.mpr fun i hmem => ?_
    obtain ⟨k, -, rfl⟩ := List.mem_map.mp hmem
    rw [List.getElem?_eq_none (by omega)]
    simp

/-- A mutation of the leaf `v` changes no other live version's observation. -/
theorem observe_confined (h : Confined v g g') (hg : g.WF) (hleaf : g.versions.children v = [])
    (hw : g.versions.isLive w = true) (hne : w ≠ v) : g'.observe w = g.observe w := by
  have hnot := hg.versions.notMem_ancestors_of_leaf hleaf hw hne
  obtain ⟨infos, hi, ho⟩ := h.varInfos
  exact observe_of_layers hg (h.wf hg) (h.layers hg.versions hnot)
    (.of_append (h.ancestors hg.versions w) (fun u _ => h.isLive u) hi ho hnot)

/-- Renaming owners changes nothing for a version that sees the same variables. -/
theorem SameVariables.of_map {f : VarInfo → VarInfo}
    (hi : ∀ i : Nat, g'.versions.varInfos[i]? = g.versions.varInfos[i]?.map f)
    (hf : ∀ info, (f info).creationUniverse = info.creationUniverse ∧
      (f info).initialDomain = info.initialDomain)
    (hacc : ∀ (i : Nat) info, g.versions.varInfos[i]? = some info →
      ((f info).owner ∈ g'.versions.ancestors w' ↔ info.owner ∈ g.versions.ancestors w))
    (hlive : ∀ (i : Nat) info, g.versions.varInfos[i]? = some info →
      info.owner ∈ g.versions.ancestors w →
      g'.versions.isLive (f info).owner = g.versions.isLive info.owner) :
    SameVariables g w g' w' := by
  have hlen : g'.versions.varInfos.length = g.versions.varInfos.length := by
    have key : ∀ i : Nat, g'.versions.varInfos.length ≤ i ↔ g.versions.varInfos.length ≤ i :=
      fun i => by
        rw [← List.getElem?_eq_none_iff, ← List.getElem?_eq_none_iff, hi, Option.map_eq_none_iff]
    exact Nat.le_antisymm ((key _).mpr (Nat.le_refl _)) ((key _).mp (Nat.le_refl _))
  have hacc' : ∀ (i : Nat) info, g.versions.varInfos[i]? = some info →
      g'.versions.isAncestor (f info).owner w' = g.versions.isAncestor info.owner w := by
    intro i info hinfo
    rw [Bool.eq_iff_iff]
    simpa [VersionTree.isAncestor] using hacc i info hinfo
  refine ⟨fun i => ?_, fun i _ => ?_, ?_⟩
  · rw [VersionTree.canAccess, VersionTree.canAccess, hi]
    cases hinfo : g.versions.varInfos[i]? with
    | none => rfl
    | some info => simpa using hacc' i info hinfo
  · rw [VersionTree.getVariable, VersionTree.getVariable, hi]
    cases hinfo : g.versions.varInfos[i]? with
    | none => simp
    | some info => exact hf info
  · rw [VersionTree.visibleVariables, VersionTree.visibleVariables, hlen]
    refine List.filter_congr fun i _ => ?_
    rw [hi]
    cases hinfo : g.versions.varInfos[i]? with
    | none => rfl
    | some info =>
        simp only [Option.map_some, Option.any_some, hacc' i info hinfo]
        cases ha : g.versions.isAncestor info.owner w with
        | false => simp
        | true =>
            rw [hlive i info hinfo (by simpa [VersionTree.isAncestor] using ha)]

/-! ### Branching -/

section Branch

variable {parent : Nat}

theorem owner_lt (hg : g.WF) {i : Nat} {info : VarInfo}
    (hi : g.versions.varInfos[i]? = some info) : info.owner < g.versions.nodes.length := by
  have howned := hg.versions.owned_iff.mpr (show g.versions.varInfos[i]?.map VarInfo.owner =
    some info.owner by rw [hi]; rfl)
  by_contra hlt
  rw [VersionTree.ownedVariables, List.getElem?_eq_none (Nat.not_lt.mp hlt)] at howned
  simp at howned

/-- A branch changes no version's observation. -/
theorem observe_branchFrom (hg : g.WF) (hlive : g.versions.isLive parent = true) {w : Nat}
    (hw : g.versions.isLive w = true) :
    (g.branchFrom parent).2.observe w = g.observe w := by
  have hlt := VersionTree.lt_length_of_isLive hw
  have hp := VersionTree.lt_length_of_isLive hlive
  have hanc : (g.branchFrom parent).2.versions.ancestors w = g.versions.ancestors w :=
    (VersionTree.branchFrom_ancestors hg.versions hlive w).trans (if_neg (Nat.ne_of_lt hlt))
  refine observe_of_layers hg (hg.branchFrom hlive) (branchFrom_layers hg hlive hlt) ?_
  refine .of_map (f := id) (fun i => (Option.map_id_apply).symm) (fun _ => ⟨rfl, rfl⟩)
    (fun _ _ _ => by rw [hanc]; rfl) fun i info hinfo _ => ?_
  have hne := Nat.ne_of_lt (owner_lt hg hinfo)
  exact (VersionTree.branchFrom_isLive hp _).trans (by simp [hne])

/-- The new version observes what its parent observes. -/
theorem observe_branchFrom_child (hg : g.WF) (hlive : g.versions.isLive parent = true) :
    (g.branchFrom parent).2.observe g.versions.nodes.length = g.observe parent := by
  have hp := VersionTree.lt_length_of_isLive hlive
  have hl := branchFrom_layers_child hg hlive
  have hparent : (g.branchFrom parent).2.getParent g.versions.nodes.length =
      g.getParent parent := by
    funext ty
    rw [getParent, getParent, hl]
    rfl
  refine observe_eq ?_ ?_ ?_ ?_ ?_ ?_ ?_ ?_
  · funext ty
    rw [find, find, hparent, chainBound, chainBound, hl]
    rfl
  · funext ty; rw [getBound, getBound, hl]; rfl
  · rw [view_branchFrom hg hlive]
  · rw [view_branchFrom hg hlive]
  · rw [semanticRevision, branchFrom_state hg, if_pos rfl]
  · intro i; rw [hl]; simp [default]
  · rw [hl]; simp [default]
  · have hanc : (g.branchFrom parent).2.versions.ancestors g.versions.nodes.length =
        g.versions.nodes.length :: g.versions.ancestors parent :=
      (VersionTree.branchFrom_ancestors hg.versions hlive _).trans (if_pos rfl)
    refine .of_map (f := id) (fun i => (Option.map_id_apply).symm) (fun _ => ⟨rfl, rfl⟩)
      (fun i info hinfo => ?_) fun i info hinfo _ => ?_
    · have hne := Nat.ne_of_lt (owner_lt hg hinfo)
      rw [hanc]; simp [hne]
    · have hne := Nat.ne_of_lt (owner_lt hg hinfo)
      exact (VersionTree.branchFrom_isLive hp _).trans (by simp [hne])

end Branch

/-! ### Collapsing and discarding -/

section Collapse

variable {child parent : Nat}

/-- Chains of pointers of the parent after a collapse are the child's. -/
theorem Collapsed.getParent_eq (hg : g.WF) (hc : g.CanCollapse child parent)
    (h : Collapsed g child parent g') : g'.getParent parent = g.getParent child :=
  congrArg View.parent (h.view_parent hg hc.2.2.1)

theorem layers_child (hg : g.WF) (hc : g.CanCollapse child parent) :
    g.layers child = g.state child :: g.layers parent := by
  rw [layers_eq hg.versions.ordered, lowerLayers, hc.2.2.1]; rfl

/-- A collapse makes the parent observe what the child observed. -/
theorem observe_collapse (hg : g.Valid) (hc : g.CanCollapse child parent)
    (h : Collapsed g child parent g') : g'.observe parent = g.observe child := by
  have hview := h.view_parent hg.wf hc.2.2.1
  have hparent := h.getParent_eq hg.wf hc
  have hgr := hg.grounded child hc.1
  have hl := layers_child hg.wf hc
  have hlp := layers_eq hg.wf.versions.ordered parent
  have hanc := VersionTree.ancestors_of_same_parent hg.wf.versions h.parent_eq parent
  have hancc : g.versions.ancestors child = child :: g.versions.ancestors parent := by
    rw [VersionTree.ancestors_eq hg.wf.versions.ordered, hc.2.2.1]; rfl
  refine observe_eq ?_ (congrArg View.bound hview) (by rw [hview]) (by rw [hview]) ?_ ?_ ?_ ?_
  · funext ty
    refine (find_eq_iff (hparent ▸ hgr)).mpr ?_
    rw [hparent]
    exact find_reaches hgr ty
  · have hstate : g'.state parent = VersionState.extend (g.state parent) (g.state child) := by
      have := layers_eq h.wf.versions.ordered parent
      rw [h.layers_parent] at this
      exact (List.cons.inj this).1.symm
    rw [semanticRevision, hstate]; rfl
  · intro i
    rw [h.layers_parent, hl, hlp]
    simp [VersionState.extend, or_assoc, or_left_comm]
  · rw [h.layers_parent, hl, hlp]
    simp [VersionState.extend]
  · refine .of_map h.varInfos (fun info => ?_) (fun i info hinfo => ?_) fun i info hinfo ha => ?_
    · split <;> exact ⟨rfl, rfl⟩
    · rw [hanc, hancc]
      split
      · rename_i ho
        simp [ho, VersionTree.self_mem_ancestors hg.wf.versions.ordered parent]
      · rename_i ho
        simp [ho]
    · split
      · rename_i ho
        have hne : parent ≠ child := Nat.ne_of_lt (hg.wf.versions.ordered child parent hc.2.2.1)
        have := (h.isLive parent).mpr ⟨hc.2.1, hne⟩
        rw [ho, hc.1]; exact this
      · rename_i ho
        rw [Bool.eq_iff_iff, h.isLive]
        exact and_iff_left ho

/-- A collapse changes no other version's observation. -/
theorem observe_collapse_of_ne (hg : g.WF) (hc : g.CanCollapse child parent)
    (h : Collapsed g child parent g') (hw : g'.versions.isLive w = true) (hne : w ≠ parent) :
    g'.observe w = g.observe w := by
  obtain ⟨hwl, hwc⟩ := (h.isLive w).mp hw
  have hanc := VersionTree.ancestors_of_same_parent hg.versions h.parent_eq w
  have hchild := hg.versions.notMem_ancestors_of_leaf hc.2.2.2.1 hwl hwc
  have hparent : parent ∉ g.versions.ancestors w := fun hm =>
    (hc.eq_of_mem_ancestors hg hwl hm).elim hne hwc
  refine observe_of_layers hg h.wf (h.layers w hw hne) ?_
  refine .of_map h.varInfos (fun info => ?_) (fun i info hinfo => ?_) fun i info hinfo ha => ?_
  · split <;> exact ⟨rfl, rfl⟩
  · rw [hanc]
    split
    · rename_i ho
      rw [ho]
      exact iff_of_false hparent hchild
    · rfl
  · have ho : info.owner ≠ child := fun e => hchild (e ▸ ha)
    rw [if_neg ho, Bool.eq_iff_iff, h.isLive]
    exact and_iff_left ho

/-- A discard changes no surviving version's observation. -/
theorem observe_discard (hg : g.WF) {version : Nat} (h : Discarded g version parent g')
    (hw : g'.versions.isLive w = true) : g'.observe w = g.observe w := by
  have hanc := VersionTree.ancestors_of_same_parent hg.versions h.parent_eq w
  refine observe_of_layers hg h.wf (h.layers w hw) ?_
  refine .of_map (f := id) (fun i => ?_) (fun _ => ⟨rfl, rfl⟩) (fun _ _ _ => by rw [hanc]; rfl)
    fun i info hinfo ha => ?_
  · rw [h.varInfos]; exact (Option.map_id_apply).symm
  · rw [Bool.eq_iff_iff]
    refine (h.isLive _).trans (and_iff_left fun hv => ?_)
    exact ((h.isLive w).mp hw).2 (VersionTree.mem_ancestors_trans hg.versions.ordered hv ha)

end Collapse

/-! ### Valid egraphs -/

theorem getParent_of_layers (hl : g'.layers w = g.layers w) : g'.getParent w = g.getParent w := by
  funext ty; rw [getParent, getParent, hl]

namespace Valid

theorem of_local (hg : g.Valid) (hleaf : g.versions.children v = []) (h : Local v g g') :
    g'.Valid where
  wf := h.wf hg.wf
  grounded w hw := by
    rw [h.isLive] at hw
    by_cases hwv : w = v
    · subst hwv
      exact h.grounded hg.wf (lt_length_of_isLive hg.wf hw) (hg.grounded w hw)
    · rw [getParent_of_layers (h.layers_of_leaf hg.wf.versions hleaf hw hwv)]
      exact hg.grounded w hw

theorem branchFrom (hg : g.Valid) {parent : Nat} (hlive : g.versions.isLive parent = true) :
    (g.branchFrom parent).2.Valid where
  wf := hg.wf.branchFrom hlive
  grounded w hw := by
    have hp := VersionTree.lt_length_of_isLive hlive
    have hw' := (VersionTree.branchFrom_isLive hp w).symm.trans hw
    by_cases hwn : w = g.versions.nodes.length
    · subst hwn
      have := congrArg View.parent (view_branchFrom hg.wf hlive)
      rw [show (g.branchFrom parent).2.getParent g.versions.nodes.length = g.getParent parent
        from this]
      exact hg.grounded parent hlive
    · have hwl : g.versions.isLive w = true := by simpa [hwn] using hw'
      rw [getParent_of_layers (branchFrom_layers hg.wf hlive
        (VersionTree.lt_length_of_isLive hwl))]
      exact hg.grounded w hwl

theorem collapsed (hg : g.Valid) {child parent : Nat} (hc : g.CanCollapse child parent)
    (h : Collapsed g child parent g') : g'.Valid where
  wf := h.wf
  grounded w hw := by
    by_cases hwp : w = parent
    · subst hwp
      rw [h.getParent_eq hg.wf hc]
      exact hg.grounded child hc.1
    · rw [getParent_of_layers (h.layers w hw hwp)]
      exact hg.grounded w ((h.isLive w).mp hw).1

theorem discarded (hg : g.Valid) {version parent : Nat} (h : Discarded g version parent g') :
    g'.Valid where
  wf := h.wf
  grounded w hw := by
    rw [getParent_of_layers (h.layers w hw)]
    exact hg.grounded w ((h.isLive w).mp hw).1

end Valid

/-! ### Transactions -/

/-- A transaction that failed: the versions that were live still are, and no observation
changed. -/
structure Aborted (g g' : VersionedEGraph) : Prop where
  valid : g'.Valid
  isLive : ∀ w, g'.versions.isLive w = g.versions.isLive w
  observe : ∀ w, g.versions.isLive w = true → g'.observe w = g.observe w

/-- A transaction that succeeded: `parent` observes what the probe, reached from it by a local
change, observed; no other observation changed. -/
structure Committed (g : VersionedEGraph) (parent : Version) (g' : VersionedEGraph) : Prop where
  valid : g'.Valid
  isLive : ∀ w, g'.versions.isLive w = g.versions.isLive w
  observe : ∀ w, g.versions.isLive w = true → w ≠ parent → g'.observe w = g.observe w
  probe : ∃ child probe, child = g.versions.nodes.length ∧
    Local child (g.branchFrom parent).2 probe ∧ g'.observe parent = probe.observe child

section Probe

variable {parent : Nat} {probe : VersionedEGraph}

theorem probe_leaf (hlive : g.versions.isLive parent = true) :
    (g.branchFrom parent).2.versions.children g.versions.nodes.length = [] := by
  have hp := VersionTree.lt_length_of_isLive hlive
  exact (VersionTree.branchFrom_children hp _).trans (if_pos rfl)

theorem probe_isLive (hlive : g.versions.isLive parent = true)
    (h : Local g.versions.nodes.length (g.branchFrom parent).2 probe) :
    probe.versions.isLive g.versions.nodes.length = true := by
  rw [h.isLive]
  exact (VersionTree.branchFrom_isLive (VersionTree.lt_length_of_isLive hlive) _).trans (by simp)

theorem probe_parent (hlive : g.versions.isLive parent = true)
    (h : Local g.versions.nodes.length (g.branchFrom parent).2 probe) :
    probe.versions.parent g.versions.nodes.length = some parent := by
  rw [h.parent]
  exact (VersionTree.branchFrom_parent (VersionTree.lt_length_of_isLive hlive) _).trans
    (if_pos rfl)

/-- A discarded probe is discarded from its parent. -/
theorem probe_discarded (hg : g.Valid) (hlive : g.versions.isLive parent = true)
    (h : Local g.versions.nodes.length (g.branchFrom parent).2 probe) :
    Discarded probe g.versions.nodes.length parent (probe.discard g.versions.nodes.length) :=
  discarded (h.wf (hg.branchFrom hlive).wf) (probe_isLive hlive h) (probe_parent hlive h)

/-- Discarding a probe takes back everything it did. -/
theorem aborted_of_local (hg : g.Valid) (hlive : g.versions.isLive parent = true)
    (h : Local g.versions.nodes.length (g.branchFrom parent).2 probe) :
    Aborted g (probe.discard g.versions.nodes.length) := by
  have hp := VersionTree.lt_length_of_isLive hlive
  have hb := hg.branchFrom hlive
  have hleaf := probe_leaf hlive
  have hprobe := hb.of_local hleaf h
  have hd := probe_discarded hg hlive h
  have hold : ∀ w, g.versions.isLive w = true →
      probe.versions.isLive w = true ∧ w ≠ g.versions.nodes.length := fun w hw => by
    have hne : w ≠ g.versions.nodes.length :=
      Nat.ne_of_lt (VersionTree.lt_length_of_isLive hw)
    refine ⟨?_, hne⟩
    rw [h.isLive]
    exact (VersionTree.branchFrom_isLive hp w).trans (by simp [hw])
  have hleaf' : probe.versions.children g.versions.nodes.length = [] :=
    (h.children _).trans hleaf
  have hsurvive : ∀ w, g.versions.isLive w = true →
      (probe.discard g.versions.nodes.length).versions.isLive w = true := fun w hw =>
    (hd.isLive w).mpr ⟨(hold w hw).1, hprobe.wf.versions.notMem_ancestors_of_leaf hleaf'
      (hold w hw).1 (hold w hw).2⟩
  refine ⟨hprobe.discarded hd, fun w => ?_, fun w hw => ?_⟩
  · rw [Bool.eq_iff_iff]
    refine ⟨fun hw => ?_, hsurvive w⟩
    obtain ⟨hwl, hwm⟩ := (hd.isLive w).mp hw
    rw [h.isLive] at hwl
    have hwl := (VersionTree.branchFrom_isLive hp w).symm.trans hwl
    have hne : w ≠ g.versions.nodes.length := by
      rintro rfl
      exact hwm (VersionTree.self_mem_ancestors hprobe.wf.versions.ordered _)
    simpa [hne] using hwl
  · exact (observe_discard hprobe.wf hd (hsurvive w hw)).trans
      ((observe_confined h.toConfined hb.wf hleaf
        ((h.isLive w).symm.trans (hold w hw).1) (hold w hw).2).trans
          (observe_branchFrom hg.wf hlive hw))

/-- What a version that was live reads and hangs from, after a probe is discarded. -/
theorem probe_discard_layers (hg : g.Valid) (hlive : g.versions.isLive parent = true)
    (h : Local g.versions.nodes.length (g.branchFrom parent).2 probe) {w : Nat}
    (hw : g.versions.isLive w = true) :
    (probe.discard g.versions.nodes.length).layers w = g.layers w ∧
      (probe.discard g.versions.nodes.length).versions.parent w = g.versions.parent w := by
  have hp := VersionTree.lt_length_of_isLive hlive
  have hwl := VersionTree.lt_length_of_isLive hw
  have hd := probe_discarded hg hlive h
  have hbranch : (g.branchFrom parent).2.versions.isLive w = true :=
    (VersionTree.branchFrom_isLive hp w).trans (by simp [hw])
  have hafter := ((aborted_of_local hg hlive h).isLive w).trans hw
  constructor
  · rw [hd.layers w hafter, h.layers_of_leaf (hg.branchFrom hlive).wf.versions (probe_leaf hlive)
      hbranch (Nat.ne_of_lt hwl), branchFrom_layers hg.wf hlive hwl]
  · rw [hd.parent_eq, h.parent]
    exact (VersionTree.branchFrom_parent hp w).trans (if_neg (Nat.ne_of_lt hwl))

theorem probe_canCollapse (hlive : g.versions.isLive parent = true)
    (hleaf : g.versions.children parent = [])
    (h : Local g.versions.nodes.length (g.branchFrom parent).2 probe) :
    probe.CanCollapse g.versions.nodes.length parent := by
  have hp := VersionTree.lt_length_of_isLive hlive
  refine ⟨?_, ?_, ?_, ?_, ?_⟩
  · rw [h.isLive]; exact (VersionTree.branchFrom_isLive hp _).trans (by simp)
  · rw [h.isLive]; exact (VersionTree.branchFrom_isLive hp _).trans (by simp [hlive])
  · rw [h.parent]; exact (VersionTree.branchFrom_parent hp _).trans (if_pos rfl)
  · rw [h.children]; exact probe_leaf hlive
  · rw [h.children]
    refine (VersionTree.branchFrom_children hp parent).trans ?_
    rw [if_neg (Nat.ne_of_lt hp), if_pos rfl, hleaf]
    rfl

/-- Collapsing a probe publishes everything it did. -/
theorem committed_of_local (hg : g.Valid) (hlive : g.versions.isLive parent = true)
    (hleaf : g.versions.children parent = [])
    (h : Local g.versions.nodes.length (g.branchFrom parent).2 probe) :
    Committed g parent (probe.collapseInto g.versions.nodes.length parent).2 := by
  have hp := VersionTree.lt_length_of_isLive hlive
  have hb := hg.branchFrom hlive
  have hprobe := hb.of_local (probe_leaf hlive) h
  have hc := probe_canCollapse hlive hleaf h
  have hcol := VersionedEGraph.collapsed hprobe.wf hc
  have hlive' : ∀ w, (probe.collapseInto g.versions.nodes.length parent).2.versions.isLive w =
      g.versions.isLive w := fun w => by
    rw [Bool.eq_iff_iff]
    refine (hcol.isLive w).trans ?_
    rw [h.isLive, show (g.branchFrom parent).2.versions.isLive w = _ from
      VersionTree.branchFrom_isLive hp w]
    constructor
    · rintro ⟨hw, hne⟩; simpa [hne] using hw
    · intro hw
      exact ⟨by simp [hw], Nat.ne_of_lt (VersionTree.lt_length_of_isLive hw)⟩
  refine ⟨hprobe.collapsed hc hcol, hlive', fun w hw hne => ?_, _, probe, rfl, h,
    observe_collapse hprobe hc hcol⟩
  have hwn : w ≠ g.versions.nodes.length := Nat.ne_of_lt (VersionTree.lt_length_of_isLive hw)
  refine (observe_collapse_of_ne hprobe.wf hc hcol ((hlive' w).trans hw) hne).trans ?_
  refine (observe_confined h.toConfined hb.wf (probe_leaf hlive) ?_ hwn).trans
    (observe_branchFrom hg.wf hlive hw)
  exact (VersionTree.branchFrom_isLive hp w).trans (by simp [hw])

end Probe

end VersionedEGraph

end Sage
