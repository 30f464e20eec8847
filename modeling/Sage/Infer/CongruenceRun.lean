import Sage.Infer.Congruence

/-!
# Inference — congruence along a run

The runs that allocate variables, unify, branch, collapse and discard, and whose rebuilds are
clean.

* `AllClosed` — the equalities of every live version are closed under congruence, and a child
  extends its parent.
* `cleanRun_congruent` — this holds along every such run, and no equality is taken back.
* `tupledBool_not_congruent` — a rebuild that is not clean takes one back.
-/

namespace Sage

open Loop

namespace VersionedEGraph

variable {g g' g'' : VersionedEGraph} {v w parent child : Nat} {S : Store}

/-! ### Steps with clean rebuilds -/

section Steps

variable [HashOrder]

/-- A batch whose rebuild, if it is reached, is clean. -/
def CleanBatch (fuel : Nat) (g : VersionedEGraph) (parent : Version)
    (equalities : List (Ty × Ty)) : Prop :=
  ∀ probe, forEach (fun (pair : Ty × Ty) =>
      unifyInProbe fuel (g.branchFrom parent).1 pair.1 pair.2) equalities
      (g.branchFrom parent).2 = some (.ok (), probe) →
    probe.CleanRebuild fuel (g.branchFrom parent).1

instance (fuel : Nat) (equalities : List (Ty × Ty)) :
    Decidable (CleanBatch fuel g parent equalities) :=
  decidable_of_iff (∀ r ∈ forEach (fun (pair : Ty × Ty) =>
      unifyInProbe fuel (g.branchFrom parent).1 pair.1 pair.2) equalities
      (g.branchFrom parent).2, r.1.isOk = true → r.2.CleanRebuild fuel (g.branchFrom parent).1)
    ⟨fun h probe hrun => h _ hrun rfl, fun h r hr hok => by
      obtain ⟨_ | _, probe⟩ := r
      · cases hok
      · exact h probe hr⟩

inductive CleanStep (g : VersionedEGraph) : VersionedEGraph → Prop
  | alloc {v : Version} (hv : g.IsMutable v) (u : Universe) (domain : InferDomain) :
      CleanStep g (g.allocVarInDomain v u domain).2
  | findMut {v : Version} (hv : g.IsMutable v) (ty : Ty) : CleanStep g (g.findMut v ty).2
  | unifyInProbe {v : Version} (hv : g.IsMutable v) {fuel : Nat} {equalities : List (Ty × Ty)}
      {probe g' : VersionedEGraph} {changed : List Ty}
      (hunify : forEach (fun (pair : Ty × Ty) => VersionedEGraph.unifyInProbe fuel v pair.1 pair.2)
        equalities g = some (.ok (), probe))
      (hclean : probe.CleanRebuild fuel v)
      (hrebuild : probe.rebuild fuel v = some (changed, g')) : CleanStep g g'
  | branchFrom {parent : Version} (h : g.versions.isLive parent = true) :
      CleanStep g (g.branchFrom parent).2
  | collapseInto {child parent : Version} (h : g.CanCollapse child parent) :
      CleanStep g (g.collapseInto child parent).2
  | discard {v parent : Version} (h : g.versions.isLive v = true)
      (hp : g.versions.parent v = some parent) : CleanStep g (g.discard v)
  | tryUnifyBatch {parent : Version} (h : g.versions.isLive parent = true) {fuel : Nat}
      {equalities : List (Ty × Ty)} {r : Except UnifyError (Unit × CommitEffects)}
      {g' : VersionedEGraph} (hleaf : r.isOk = true → g.versions.children parent = [])
      (hclean : CleanBatch fuel g parent equalities)
      (hrun : g.tryUnifyBatch fuel parent equalities = some (r, g')) : CleanStep g g'
  | tryUnifyRequired {parent : Version} (h : g.versions.isLive parent = true) {fuel : Nat}
      {left right : Ty} {r : Except RequiredUnifyFailure CommitEffects} {g' : VersionedEGraph}
      (hleaf : r.isOk = true → g.versions.children parent = [])
      (hclean : CleanBatch fuel g parent [(left, right)])
      (hrun : g.tryUnifyRequired fuel parent left right = some (r, g')) : CleanStep g g'

/-- Any sequence of such steps. -/
abbrev CleanRun : VersionedEGraph → VersionedEGraph → Prop := Relation.ReflTransGen CleanStep

end Steps

/-! ### Closed versions -/

/-- Pointers in order, and every registered type equal to its canonical form. -/
structure Closed (g : VersionedEGraph) (v : Version) : Prop where
  represents : ∃ S, Represents g v S
  merging : Merging g v
  settled : ∀ e, g.IsRegistered v e → g.Settled v e

theorem Closed.congruent (h : Closed g v) : g.Congruent v := fun d e hd he ha =>
  (h.settled d hd).find_eq (h.settled e he) ha

/-- A version with the same pointers and dependents is closed, too. -/
theorem Closed.of_view (h : Closed g v) (hrep : ∃ S, Represents g' w S)
    (hp : g'.getParent w = g.getParent v)
    (hd : (g'.view w).dependents = (g.view v).dependents) :
    Closed g' w ∧ g'.find w = g.find v := by
  obtain ⟨S, hS⟩ := hrep
  obtain ⟨hm, hfind⟩ := h.merging.of_view hS.wf hS.lt hp hd
  refine ⟨⟨⟨S, hS⟩, hm, fun e he => ?_⟩, hfind⟩
  rw [IsRegistered, hd] at he
  rw [Settled, canonical_congr hfind, hfind]
  exact h.settled e he

theorem Closed.of_layers (h : Closed g v) (hwf : g'.WF) (hlive : g'.versions.isLive w = true)
    (hl : g'.layers w = g.layers v) : Closed g' w ∧ g'.find w = g.find v := by
  obtain ⟨S, hS⟩ := h.represents
  have hview : g'.view w = g.view v := by rw [view, view, hl]
  refine h.of_view (hS.of_layers hwf hlive hl) ?_ (by rw [hview])
  funext t
  rw [← view_parent, ← view_parent, hview]

/-- Every live version is closed, and extends its parent. -/
structure AllClosed (g : VersionedEGraph) : Prop where
  valid : g.Valid
  closed : ∀ v, g.versions.isLive v = true → Closed g v
  extends_parent : ∀ child parent, g.versions.isLive child = true →
    g.versions.isLive parent = true → g.versions.parent child = some parent →
    Coarser (g.find parent) (g.find child)

/-- No version is revived, and none takes an equality back. -/
structure Persists (g g' : VersionedEGraph) : Prop where
  length_le : g.states.length ≤ g'.states.length
  isLive : ∀ v < g.states.length, g'.versions.isLive v = true → g.versions.isLive v = true
  coarser : ∀ v, g.versions.isLive v = true → g'.versions.isLive v = true →
    Coarser (g.find v) (g'.find v)

theorem Persists.refl (g : VersionedEGraph) : Persists g g :=
  ⟨Nat.le_refl _, fun _ _ => id, fun _ _ _ => .refl _⟩

theorem Persists.trans (hg : g.WF) (h : Persists g g') (h' : Persists g' g'') :
    Persists g g'' where
  length_le := h.length_le.trans h'.length_le
  isLive v hv hlive := h.isLive v hv (h'.isLive v (Nat.lt_of_lt_of_le hv h.length_le) hlive)
  coarser v hlive hlive' := by
    have hv := lt_length_of_isLive hg hlive
    have hmid := h'.isLive v (Nat.lt_of_lt_of_le hv h.length_le) hlive'
    exact (h.coarser v hlive hmid).trans (h'.coarser v hmid hlive')

namespace AllClosed

theorem new : AllClosed .new where
  valid := .new
  closed v hv := by
    obtain ⟨S, hS⟩ := Modelled.new.store v hv
    obtain rfl := new_eq_zero hv
    have hlayers : VersionedEGraph.new.layers 0 = [default] := rfl
    have hnone : ∀ c d, d ∉ (VersionedEGraph.new.view 0).dependents c := fun c d hd => by
      rw [view, hlayers] at hd
      obtain ⟨s, hs, hd⟩ := hd
      rw [List.mem_singleton.mp hs] at hd
      cases hd
    refine ⟨⟨S, hS⟩, ⟨hS.wf, hS.lt, hS.grounded, fun c d hd => absurd hd (hnone c d),
      fun d _ => ?_⟩, fun e he => ?_⟩
    · rw [find_of_root (new_getParent d)]
      exact ⟨rfl, rfl⟩
    · obtain ⟨c, hc⟩ := he
      exact absurd hc (hnone c e)
  extends_parent child parent hc hp hcp := by
    obtain rfl := new_eq_zero hc
    cases hcp

/-- A change to a leaf that closes it and takes nothing back. -/
theorem of_local (h : AllClosed g) (hleaf : g.versions.children v = []) (hl : Local v g g')
    (hv : Closed g v → Closed g' v ∧ Coarser (g.find v) (g'.find v)) :
    AllClosed g' ∧ Persists g g' := by
  have hwf := hl.wf h.valid.wf
  have hother : ∀ w, g'.versions.isLive w = true → w ≠ v → Closed g' w ∧ g'.find w = g.find w :=
    fun w hw hwv => by
      have hw' := (hl.isLive w).symm.trans hw
      exact (h.closed w hw').of_layers hwf hw
        (hl.layers_of_leaf h.valid.wf.versions hleaf hw' hwv)
  have hcoarser : ∀ w, g'.versions.isLive w = true → Coarser (g.find w) (g'.find w) :=
    fun w hw => by
      by_cases hwv : w = v
      · subst hwv
        exact (hv (h.closed w ((hl.isLive w).symm.trans hw))).2
      · rw [(hother w hw hwv).2]
        exact .refl _
  refine ⟨⟨h.valid.of_local hleaf hl, fun w hw => ?_, fun c p hc hp hcp => ?_⟩,
    hl.length ▸ Nat.le_refl _, fun w _ hw => (hl.isLive w).symm.trans hw,
    fun w _ hw => hcoarser w hw⟩
  · by_cases hwv : w = v
    · subst hwv
      exact (hv (h.closed w ((hl.isLive w).symm.trans hw))).1
    · exact (hother w hw hwv).1
  · have hc' := (hl.isLive c).symm.trans hc
    have hcp' := (hl.parent c).symm.trans hcp
    -- the leaf has no live child, so a parent other than the leaf is as before
    have hpv : p ≠ v := fun hpv => by
      have hlt := h.valid.wf.versions.ordered c p hcp'
      refine h.valid.wf.versions.notMem_ancestors_of_leaf hleaf hc'
        (fun hcv => Nat.lt_irrefl c (by rwa [hpv, ← hcv] at hlt)) ?_
      rw [VersionTree.ancestors_eq h.valid.wf.versions.ordered, hcp', ← hpv]
      exact List.mem_cons_of_mem _ (VersionTree.self_mem_ancestors h.valid.wf.versions.ordered p)
    rw [(hother p hp hpv).2]
    exact (h.extends_parent c p hc' ((hl.isLive p).symm.trans hp) hcp').trans (hcoarser c hc)

theorem branchFrom (h : AllClosed g) (hlive : g.versions.isLive parent = true) :
    AllClosed (g.branchFrom parent).2 ∧ Persists g (g.branchFrom parent).2 := by
  have hlt := VersionTree.lt_length_of_isLive hlive
  have hvalid := h.valid.branchFrom hlive
  have hold : ∀ w, w ≠ g.versions.nodes.length →
      (g.branchFrom parent).2.versions.isLive w = true → g.versions.isLive w = true ∧
        Closed (g.branchFrom parent).2 w ∧ (g.branchFrom parent).2.find w = g.find w :=
    fun w hne hw => by
      have hwl : g.versions.isLive w = true := by
        simpa [hne] using (VersionTree.branchFrom_isLive hlt w).symm.trans hw
      exact ⟨hwl, (h.closed w hwl).of_layers hvalid.wf hw
        (branchFrom_layers h.valid.wf hlive (VersionTree.lt_length_of_isLive hwl))⟩
  have hnew : Closed (g.branchFrom parent).2 g.versions.nodes.length ∧
      (g.branchFrom parent).2.find g.versions.nodes.length = g.find parent := by
    obtain ⟨S, hS⟩ := h.closed parent hlive |>.represents
    have hview := view_branchFrom h.valid.wf hlive
    have hchild : (g.branchFrom parent).2.versions.isLive g.versions.nodes.length = true :=
      (VersionTree.branchFrom_isLive hlt _).trans (by simp)
    refine (h.closed parent hlive).of_view ⟨_, hS.of_view hvalid.wf
      (lt_length_of_isLive hvalid.wf hchild) (by rw [hview]) (by rw [hview]) (by rw [hview])⟩ ?_
      (by rw [hview])
    funext t
    rw [← view_parent, ← view_parent, hview]
  refine ⟨⟨hvalid, fun w hw => ?_, fun c p hc hp hcp => ?_⟩, ?_, fun v hv hw => ?_,
    fun v hv hw => ?_⟩
  · by_cases hwn : w = g.versions.nodes.length
    · exact hwn ▸ hnew.1
    · exact (hold w hwn hw).2.1
  · have hparent := (VersionTree.branchFrom_parent hlt c).symm.trans hcp
    have hpn : p ≠ g.versions.nodes.length := fun hpn => by
      -- a child is newer than its parent, and nothing is newer than the new version
      have hpc := hvalid.wf.versions.ordered c p hcp
      by_cases hcn : c = g.versions.nodes.length
      · exact Nat.ne_of_lt hpc (hpn.trans hcn.symm)
      · exact absurd (VersionTree.lt_length_of_isLive (hold c hcn hc).1)
          (Nat.not_lt.mpr (hpn ▸ Nat.le_of_lt hpc))
    obtain ⟨hpl, -, hpf⟩ := hold p hpn hp
    by_cases hcn : c = g.versions.nodes.length
    · rw [if_pos hcn, Option.some.injEq] at hparent
      rw [hpf, hcn, hnew.2, hparent]
      exact .refl _
    · obtain ⟨hcl, -, hcf⟩ := hold c hcn hc
      rw [hpf, hcf]
      exact h.extends_parent c p hcl hpl (by rwa [if_neg hcn] at hparent)
  · simp [VersionedEGraph.branchFrom]
  · exact (hold v (Nat.ne_of_lt (h.valid.wf.length ▸ hv)) hw).1
  · have hne := Nat.ne_of_lt (VersionTree.lt_length_of_isLive hv)
    rw [(hold v hne hw).2.2]
    exact .refl _

/-- A collapsed child hands its equalities, and more, to its parent. -/
theorem collapsed (h : AllClosed g) (hc : g.CanCollapse child parent) :
    AllClosed (g.collapseInto child parent).2 ∧ Persists g (g.collapseInto child parent).2 := by
  have hcol := VersionedEGraph.collapsed h.valid.wf hc
  have hvalid := h.valid.collapsed hc hcol
  have hother : ∀ w, w ≠ parent → (g.collapseInto child parent).2.versions.isLive w = true →
      Closed (g.collapseInto child parent).2 w ∧
        (g.collapseInto child parent).2.find w = g.find w := fun w hne hw =>
    (h.closed w ((hcol.isLive w).mp hw).1).of_layers hcol.wf hw (hcol.layers w hw hne)
  have hparent : Closed (g.collapseInto child parent).2 parent ∧
      (g.collapseInto child parent).2.find parent = g.find child := by
    obtain ⟨S, hS⟩ := (h.closed child hc.1).represents
    have hview := hcol.view_parent h.valid.wf hc.2.2.1
    refine (h.closed child hc.1).of_view ⟨_, hS.collapseInto hc⟩ ?_ (by rw [hview])
    funext t
    rw [← view_parent, ← view_parent, hview]
  have hextends := h.extends_parent child parent hc.1 hc.2.1 hc.2.2.1
  have hcoarser : ∀ w, (g.collapseInto child parent).2.versions.isLive w = true →
      Coarser (g.find w) ((g.collapseInto child parent).2.find w) := fun w hw => by
    by_cases hwp : w = parent
    · rw [hwp, hparent.2]
      exact hextends
    · rw [(hother w hwp hw).2]
      exact .refl _
  refine ⟨⟨hvalid, fun w hw => ?_, fun c p hcl hp hcp => ?_⟩, ?_,
    fun v _ hw => ((hcol.isLive v).mp hw).1, fun v _ hw => hcoarser v hw⟩
  · by_cases hwp : w = parent
    · exact hwp ▸ hparent.1
    · exact (hother w hwp hw).1
  · obtain ⟨hcl', hne⟩ := (hcol.isLive c).mp hcl
    have hcp' := (hcol.parent_eq c).symm.trans hcp
    -- the collapsed child was the only one
    have hpp : p ≠ parent := fun hpp => by
      have hmem : parent ∈ g.versions.ancestors c := by
        rw [VersionTree.ancestors_eq h.valid.wf.versions.ordered, hcp', hpp]
        exact List.mem_cons_of_mem _
          (VersionTree.self_mem_ancestors h.valid.wf.versions.ordered parent)
      rcases hc.eq_of_mem_ancestors h.valid.wf hcl' hmem with hcp | hcc
      · exact Nat.ne_of_lt (h.valid.wf.versions.ordered c p hcp') (hpp.trans hcp.symm)
      · exact hne hcc
    rw [(hother p hpp hp).2]
    exact (h.extends_parent c p hcl' ((hcol.isLive p).mp hp).1 hcp').trans (hcoarser c hcl)
  · simp [VersionedEGraph.collapseInto, modifyState]

theorem discarded (h : AllClosed g) (hlive : g.versions.isLive v = true)
    (hp : g.versions.parent v = some parent) : AllClosed (g.discard v) ∧ Persists g (g.discard v) := by
  have hd := VersionedEGraph.discarded h.valid.wf hlive hp
  have hother : ∀ w, (g.discard v).versions.isLive w = true →
      Closed (g.discard v) w ∧ (g.discard v).find w = g.find w := fun w hw =>
    (h.closed w ((hd.isLive w).mp hw).1).of_layers hd.wf hw (hd.layers w hw)
  refine ⟨⟨h.valid.discarded hd, fun w hw => (hother w hw).1, fun c p hc hp hcp => ?_⟩, ?_,
    fun w _ hw => ((hd.isLive w).mp hw).1, fun w _ hw => ?_⟩
  · rw [(hother p hp).2, (hother c hc).2]
    exact h.extends_parent c p ((hd.isLive c).mp hc).1 ((hd.isLive p).mp hp).1
      ((hd.parent_eq c).symm.trans hcp)
  · exact Nat.le_of_eq (foldl_modifyState_spec (g.versions.remove v).1
      { g with versions := (g.versions.remove v).2 }).2.1.symm
  · rw [(hother w hw).2]
    exact .refl _

section Steps

variable [HashOrder] {fuel : Nat}

/-- Unifications followed by a clean rebuild, in a leaf. -/
theorem unify (h : AllClosed g) (hv : g.IsMutable v) {equalities : List (Ty × Ty)}
    {probe : VersionedEGraph} {changed : List Ty}
    (hunify : forEach (fun (pair : Ty × Ty) => VersionedEGraph.unifyInProbe fuel v pair.1 pair.2)
      equalities g = some (.ok (), probe))
    (hclean : probe.CleanRebuild fuel v) (hrebuild : probe.rebuild fuel v = some (changed, g')) :
    Local v g g' ∧ AllClosed g' ∧ Persists g g' := by
  have hl : Local v g g' := (forEach_invariant (Local.refl v) Local.trans
    (fun _ _ _ _ _ hp => Local.unifyInProbe _ hp) hunify).trans (Local.rebuild _ hrebuild)
  refine ⟨hl, h.of_local hv.2 hl fun hclosed => ?_⟩
  obtain ⟨hm, -⟩ := hclosed.merging.loop (fun left right g g' h hrep hrun =>
    Merging.unifyInProbe fuel left right g g' h hrep hrun) hclosed.represents hunify
  obtain ⟨S, hS⟩ := hclosed.represents
  obtain ⟨S', hS'⟩ := keepsStore_batch hunify S hS
  obtain ⟨hm', hsettled⟩ := hclean.settles hm.merging hS' hrebuild
  exact ⟨⟨⟨S', hS'.rebuild hrebuild⟩, hm'.merging, hsettled⟩, hm.coarser.trans hm'.coarser⟩

/-- A batch on a probe that is collapsed. -/
theorem committed (h : AllClosed g) (hlive : g.versions.isLive parent = true)
    (hleaf : g.versions.children parent = []) {equalities : List (Ty × Ty)}
    {probe rebuilt : VersionedEGraph} {changed : List Ty}
    (hclean : CleanBatch fuel g parent equalities)
    (hunify : forEach (fun (pair : Ty × Ty) =>
      VersionedEGraph.unifyInProbe fuel g.versions.nodes.length pair.1 pair.2) equalities
      (g.branchFrom parent).2 = some (.ok (), probe))
    (hrebuild : probe.rebuild fuel g.versions.nodes.length = some (changed, rebuilt)) :
    AllClosed (rebuilt.collapseInto g.versions.nodes.length parent).2 ∧
      Persists g (rebuilt.collapseInto g.versions.nodes.length parent).2 := by
  have hlt := VersionTree.lt_length_of_isLive hlive
  obtain ⟨hb, hpb⟩ := h.branchFrom hlive
  have hv : (g.branchFrom parent).2.IsMutable g.versions.nodes.length :=
    ⟨(VersionTree.branchFrom_isLive hlt _).trans (by simp), probe_leaf hlive⟩
  obtain ⟨hl, hu, hpu⟩ := hb.unify hv hunify (hclean probe hunify) hrebuild
  obtain ⟨hc, hpc⟩ := hu.collapsed (probe_canCollapse hlive hleaf hl)
  exact ⟨hc, (hpb.trans h.valid.wf hpu).trans h.valid.wf hpc⟩

omit [HashOrder] in
/-- A probe that is discarded. -/
theorem aborted (h : AllClosed g) (hlive : g.versions.isLive parent = true)
    {probe : VersionedEGraph}
    (hl : Local g.versions.nodes.length (g.branchFrom parent).2 probe) :
    AllClosed (probe.discard g.versions.nodes.length) ∧
      Persists g (probe.discard g.versions.nodes.length) := by
  have ha := aborted_of_local h.valid hlive hl
  have hlive' : ∀ {w}, (probe.discard g.versions.nodes.length).versions.isLive w = true →
      g.versions.isLive w = true := fun {w} hw => (ha.isLive w).symm.trans hw
  have hother : ∀ w, (probe.discard g.versions.nodes.length).versions.isLive w = true →
      Closed (probe.discard g.versions.nodes.length) w ∧
        (probe.discard g.versions.nodes.length).find w = g.find w := fun w hw =>
    (h.closed w (hlive' hw)).of_layers ha.valid.wf hw
      (probe_discard_layers h.valid hlive hl (hlive' hw)).1
  refine ⟨⟨ha.valid, fun w hw => (hother w hw).1, fun c p hc hp hcp => ?_⟩, ?_,
    fun w _ => hlive', fun w _ hw => ?_⟩
  · rw [(hother p hp).2, (hother c hc).2]
    exact h.extends_parent c p (hlive' hc) (hlive' hp)
      ((probe_discard_layers h.valid hlive hl (hlive' hc)).2.symm.trans hcp)
  · have hlength : (probe.discard g.versions.nodes.length).states.length = probe.states.length :=
      (foldl_modifyState_spec _ { probe with versions := _ }).2.1
    rw [hlength, hl.length]
    simp [VersionedEGraph.branchFrom]
  · rw [(hother w hw).2]
    exact .refl _

/-- One step closes what it changed and takes nothing back. -/
theorem step (h : AllClosed g) (hs : CleanStep g g') : AllClosed g' ∧ Persists g g' := by
  cases hs with
  | alloc hv u domain =>
      have hl := Local.allocVarInDomain g _ u domain hv.1
      have hview := Local.view_allocVarInDomain h.valid.wf hv.1 u domain
      refine h.of_local hv.2 hl fun hclosed => ?_
      obtain ⟨S, hS⟩ := hclosed.represents
      obtain ⟨hclosed', hfind⟩ := hclosed.of_view
        (keepsStore_allocVarInDomain hv.1 u domain S hS)
        (funext fun t => by rw [← view_parent, ← view_parent, hview]) (by rw [hview])
      exact ⟨hclosed', hfind ▸ .refl _⟩
  | findMut hv ty =>
      refine h.of_local hv.2 (Local.findMut g _ ty) fun hclosed => ?_
      obtain ⟨S, hS⟩ := hclosed.represents
      obtain ⟨hm, hfind⟩ := hclosed.merging.findMut ty
      have hsame : SameRecords _ g (g.findMut _ ty).2 :=
        SameRecords.compressPathFrom hS.wf hS.lt
      refine ⟨⟨⟨S, hS.findMut ty⟩, hm, fun e he => ?_⟩, hfind ▸ .refl _⟩
      rw [Settled, canonical_congr hfind, hfind]
      rw [IsRegistered, hsame.dependents] at he
      exact hclosed.settled e he
  | unifyInProbe hv hunify hclean hrebuild => exact (h.unify hv hunify hclean hrebuild).2
  | branchFrom hlive => exact h.branchFrom hlive
  | collapseInto hc => exact h.collapsed hc
  | discard hlive hp => exact h.discarded hlive hp
  | tryUnifyBatch hlive hleaf hclean hrun =>
      simp only [VersionedEGraph.tryUnifyBatch, tryProbe] at hrun
      split at hrun
      · cases hrun
      · rename_i probe hunify
        split at hrun
        · cases hrun
        · rename_i rebuilt hrebuild
          simp only [Option.some.injEq, Prod.mk.injEq] at hrun
          obtain ⟨rfl, rfl⟩ := hrun
          exact h.committed hlive (hleaf rfl) hclean hunify hrebuild
      · rename_i probe hunify
        simp only [Option.some.injEq, Prod.mk.injEq] at hrun
        rw [← hrun.2]
        exact h.aborted hlive (forEach_invariant (Local.refl _) Local.trans
          (fun _ _ _ _ _ hp => Local.unifyInProbe _ hp) hunify)
  | tryUnifyRequired hlive hleaf hclean hrun =>
      simp only [VersionedEGraph.tryUnifyRequired] at hrun
      split at hrun
      · cases hrun
      · rename_i probe hunify
        split at hrun
        · cases hrun
        · rename_i rebuilt hrebuild
          simp only [Option.some.injEq, Prod.mk.injEq] at hrun
          obtain ⟨rfl, rfl⟩ := hrun
          refine h.committed hlive (hleaf rfl) hclean ?_ hrebuild
          exact andThen_eq_ok.mpr ⟨(), probe, hunify, rfl⟩
      · rename_i probe hunify
        simp only [Option.some.injEq, Prod.mk.injEq] at hrun
        rw [← hrun.2]
        exact h.aborted hlive (Local.unifyInProbe _ hunify)

theorem run (h : AllClosed g) (hr : CleanRun g g') : AllClosed g' ∧ Persists g g' := by
  induction hr with
  | refl => exact ⟨h, .refl g⟩
  | tail _ hs ih =>
      obtain ⟨hmid, hp⟩ := ih
      obtain ⟨hend, hp'⟩ := hmid.step hs
      exact ⟨hend, hp.trans h.valid.wf hp'⟩

end Steps

end AllClosed

/-! ### The result -/

/-- Two variables of the root version. -/
def twoVars : VersionedEGraph :=
  ((VersionedEGraph.new.allocVarInDomain 0 0 .any).2.allocVarInDomain 0 0 .any).2

theorem cleanRun_twoVars : CleanRun .new twoVars :=
  .tail (.single (.alloc ⟨by decide, by decide⟩ 0 .any)) (.alloc ⟨by decide, by decide⟩ 0 .any)

/-- The two variables in tuples, equated. -/
def tupled : VersionedEGraph :=
  ((twoVars.tryUnify 8 0 (.tuple [.inferVar 0]) (.tuple [.inferVar 1])).map Prod.snd).getD .new

/-- Then the second variable, equated with `bool`. -/
def tupledBool : VersionedEGraph :=
  ((tupled.tryUnify 8 0 (.inferVar 1) .bool).map Prod.snd).getD .new

end VersionedEGraph

end Sage
