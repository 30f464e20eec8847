import Mathlib.Algebra.Order.BigOperators.Group.List
import Mathlib.Algebra.Order.Ring.Nat
import Sage.Infer.Represents

/-!
# Inference — congruence closure

`rebuild` re-points every registered compound type whose canonical form has moved.  The new
form resolves to the same type, so the store a version represents stays what it was.  A type
is pushed back on the worklist only after one of its own children was there: the resolved
sizes on the worklist grow with every round, and they are bounded by the registered types.

* `Represents.rebuild` — the store is kept.
* `Represents.rebuild_ends` — enough fuel gives a result.
-/

namespace Sage

open Loop

namespace VersionedEGraph

variable {g g' : VersionedEGraph} {v : Version} {S : Store}

/-- The canonical form of a type resolves to the same type. -/
theorem Represents.subst_recanonicalize (h : Represents g v S) {t u : Ty}
    (hu : g.recanonicalize v t = some u) : u.subst S.resolve = t.subst S.resolve := by
  simp only [recanonicalize] at hu
  split at hu
  · cases hu
  split at hu
  · cases hu
  rename_i hne _
  have hr : t.Rigid := t.rigid_or_var.resolve_right fun ⟨x, hx⟩ => hne (by rw [hx]; rfl)
  obtain ⟨hterm, hd⟩ := term_recompose hr (by simp) hu
  have hur : u.Rigid := by
    refine u.rigid_or_var.resolve_right fun ⟨x, hx⟩ => ?_
    rw [hx, Ty.term_inferVar] at hterm
    cases hterm
  rw [Ty.subst_eq_subst_iff hur hr, hd]
  refine ⟨rfl, ?_⟩
  rw [List.map_map]
  exact List.map_congr_left fun c _ => h.subst_find c

/-! ### Registered types -/

/-- Every type that is registered with some child. -/
def registered (g : VersionedEGraph) (v : Version) : List Ty :=
  (g.layers v).flatMap fun s => s.dependents.entries.flatMap fun entry => entry.2

theorem mem_registered {d : Ty} : d ∈ g.registered v ↔ ∃ c, d ∈ (g.view v).dependents c := by
  rw [registered, List.mem_flatMap]
  constructor
  · rintro ⟨s, hs, hd⟩
    obtain ⟨⟨c, ds⟩, hentry, hd⟩ := List.mem_flatMap.mp hd
    exact ⟨c, s, hs, by rwa [AList.mem_lookup_iff.mpr hentry]⟩
  · rintro ⟨c, s, hs, hd⟩
    refine ⟨s, hs, ?_⟩
    cases hl : s.dependents.lookup c with
    | none => simp [hl] at hd
    | some ds =>
        rw [hl] at hd
        exact List.mem_flatMap.mpr ⟨⟨c, ds⟩, AList.mem_lookup_iff.mp hl, hd⟩

/-! ### One dependent -/

theorem worklist_eq (h : g.WF) : (g.view v).worklist = (g.state v).worklist := by
  rw [view_eq h, View.ofLayers_cons]

/-- A dependent is left alone, or pointed at its new representative and pushed. -/
theorem rebuildDependent_cases (v : Version) (acc : VersionedEGraph × List Ty) (d : Ty) :
    rebuildDependent v acc d = acc ∨
    ∃ newTy, acc.1.recanonicalize v d = some newTy ∧ acc.1.find v newTy ≠ acc.1.find v d ∧
      rebuildDependent v acc d =
        ((acc.1.setParent v d (acc.1.find v newTy)).modifyState v fun s =>
          { s with worklist := s.worklist ++ [d] }, acc.2 ++ [d]) := by
  obtain ⟨g, changed⟩ := acc
  simp only [rebuildDependent]
  cases hnew : g.recanonicalize v d with
  | none => exact .inl rfl
  | some newTy =>
      by_cases heq : g.find v newTy = g.find v d
      · exact .inl (if_pos heq)
      · exact .inr ⟨newTy, rfl, heq, if_neg heq⟩

/-- A re-pointed dependent has a new pointer and is on the worklist. -/
theorem view_repoint (h : g.WF) (hv : v < g.states.length) (d t : Ty) :
    ((g.setParent v d t).modifyState v fun s => { s with worklist := s.worklist ++ [d] }).view v =
      { g.view v with
        parent := Function.update (g.view v).parent d t
        worklist := (g.view v).worklist ++ [d] } := by
  have hset : (g.setParent v d t).WF := h.modifyState _
  rw [view_pushWorklist hset (by simpa [setParent] using hv), view_setParent h hv]

/-- Re-pointing a dependent keeps the store and pushes at most the dependent. -/
theorem Represents.rebuildDependent {acc : VersionedEGraph × List Ty}
    (h : Represents acc.1 v S) (d : Ty) :
    Represents (rebuildDependent v acc d).1 v S ∧
      SameRecords v acc.1 (rebuildDependent v acc d).1 ∧
      ∀ e ∈ ((rebuildDependent v acc d).1.state v).worklist,
        e ∈ (acc.1.state v).worklist ∨ e = d := by
  have hlocal := Local.rebuildDependent v acc d
  rcases rebuildDependent_cases v acc d with he | ⟨newTy, hnew, hne, he⟩
  · rw [he]
    exact ⟨h, .refl v acc.1, fun _ => .inl⟩
  rw [he] at hlocal ⊢
  have hview := view_repoint h.wf h.lt d (acc.1.find v newTy)
  have hversions : ((acc.1.setParent v d (acc.1.find v newTy)).modifyState v fun s =>
      { s with worklist := s.worklist ++ [d] }).versions = acc.1.versions := rfl
  generalize (acc.1.setParent v d (acc.1.find v newTy)).modifyState v _ = g₁
    at hlocal hview hversions
  -- one new pointer, to a representative with the same resolution
  have hnd : acc.1.find v newTy ≠ d := fun e =>
    hne ((find_of_root (e ▸ getParent_find h.grounded newTy)).trans e.symm).symm
  have hsame : SameRecords v acc.1 g₁ := SameRecords.of_view hversions hview
  have hrep : Represents g₁ v S := by
    refine h.of_parent hlocal hsame ?_
    rw [show g₁.getParent v = Function.update (acc.1.getParent v) d (acc.1.find v newTy) by
      funext t; rw [← view_parent, hview]; rfl]
    refine h.resolves.update_of_eq hnd ?_
    rw [← Ty.term_subst, ← Ty.term_subst, h.subst_find, h.subst_recanonicalize hnew]
  refine ⟨hrep, hsame, fun e he => ?_⟩
  rw [← worklist_eq hrep.wf, hview, List.mem_append, List.mem_singleton] at he
  rwa [← worklist_eq h.wf]

section Rebuild

variable [HashOrder]

theorem mem_collectDependents {m d : Ty} :
    d ∈ g.collectDependents v m ↔ d ∈ (g.view v).dependents m := by
  rw [collectDependents, (HashOrder.perm _).mem_iff, dependentsOf]
  suffices ∀ (layers : List VersionState) (found : List Ty),
      d ∈ layers.foldl (fun found s => found ∪ (s.dependents.lookup m).getD []) found ↔
        d ∈ found ∨ d ∈ (View.ofLayers layers).dependents m by
    rw [this]
    simp [view]
  intro layers
  induction layers with
  | nil => intro found; simp [View.ofLayers]
  | cons s layers ih =>
      intro found
      rw [List.foldl_cons, ih, View.ofLayers_cons, List.mem_union_iff, or_assoc]
      rfl

omit [HashOrder] in
/-- Setting the worklist aside. -/
theorem Represents.setWorklist (h : Represents g v S) (worklist : List Ty) :
    Represents (g.modifyState v fun s => { s with worklist := worklist }) v S ∧
      SameRecords v g (g.modifyState v fun s => { s with worklist := worklist }) ∧
      ((g.modifyState v fun s => { s with worklist := worklist }).state v).worklist = worklist := by
  have hview := view_setWorklist h.wf h.lt worklist
  have hsame : SameRecords v g (g.modifyState v fun s => { s with worklist := worklist }) :=
    SameRecords.of_view rfl hview
  refine ⟨h.of_parent (Local.modifyState g v _ rfl) hsame ?_, hsame, ?_⟩
  · rw [getParent_modifyState h.wf h.lt rfl]
    exact h.resolves
  · rw [state_modifyState _ h.lt]

/-- What the loops of `rebuild` keep: the store, and a worklist whose types satisfy `P`. -/
structure Rebuilding (v : Version) (S : Store) (P : Ty → Prop) (g₀ : VersionedEGraph)
    (acc : VersionedEGraph × List Ty) : Prop where
  represents : Represents acc.1 v S
  same : SameRecords v g₀ acc.1
  worklist : ∀ d ∈ (acc.1.state v).worklist, P d

variable {P : Ty → Prop} {g₀ : VersionedEGraph}

theorem Rebuilding.rebuildMerged {acc : VersionedEGraph × List Ty} {m : Ty}
    (h : Rebuilding v S P g₀ acc) (hP : ∀ d ∈ (g₀.view v).dependents m, P d) :
    Rebuilding v S P g₀ (rebuildMerged v acc m) := by
  refine List.foldlRecOn _ _ h fun acc' h' d hd => ?_
  rw [mem_collectDependents, h.same.dependents] at hd
  obtain ⟨hrep, hsame, hwork⟩ := h'.represents.rebuildDependent d
  refine ⟨hrep, h'.same.trans hsame, fun e he => ?_⟩
  rcases hwork e he with he | rfl
  · exact h'.worklist e he
  · exact hP e hd

/-- One round of the worklist. -/
theorem Represents.rebuildRound (h : Represents g v S) (changed : List Ty)
    (hP : ∀ m ∈ (g.state v).worklist, ∀ d ∈ (g.view v).dependents m, P d) :
    Rebuilding v S P g ((g.state v).worklist.foldl (rebuildMerged v)
      (g.modifyState v fun s => { s with worklist := [] }, changed)) := by
  obtain ⟨hrep, hsame, hwork⟩ := h.setWorklist []
  refine List.foldlRecOn _ _ ⟨hrep, hsame, by simp [hwork]⟩ fun acc hacc m hm => ?_
  exact hacc.rebuildMerged (hP m hm)

theorem Represents.rebuildFrom {fuel : Nat} {acc : VersionedEGraph × List Ty} {changed : List Ty}
    (h : Represents acc.1 v S) (hrun : rebuildFrom fuel v acc = some (changed, g')) :
    Represents g' v S := by
  induction fuel generalizing acc with
  | zero => cases hrun
  | succ fuel ih =>
      obtain ⟨g, changed'⟩ := acc
      simp only [VersionedEGraph.rebuildFrom] at hrun
      split at hrun
      · simp only [Option.some.injEq, Prod.mk.injEq] at hrun
        exact hrun.2 ▸ (h.setWorklist []).1
      · exact ih (h.rebuildRound (P := fun _ => True) _ fun _ _ _ _ => trivial).represents hrun

/-- Rebuilding writes pointers and nothing else that is recorded. -/
theorem SameRecords.rebuildFrom {fuel : Nat} {acc : VersionedEGraph × List Ty} {changed : List Ty}
    (h : Represents acc.1 v S) (hrun : rebuildFrom fuel v acc = some (changed, g')) :
    SameRecords v acc.1 g' := by
  induction fuel generalizing acc with
  | zero => cases hrun
  | succ fuel ih =>
      obtain ⟨g, changed'⟩ := acc
      simp only [VersionedEGraph.rebuildFrom] at hrun
      have hset := (h.setWorklist []).2.1
      split at hrun
      · simp only [Option.some.injEq, Prod.mk.injEq] at hrun
        exact hrun.2 ▸ hset
      · have hround := h.rebuildRound (P := fun _ => True) changed' fun _ _ _ _ => trivial
        exact hround.same.trans (ih hround.represents hrun)

/-- Rebuilding keeps the store. -/
theorem Represents.rebuild {fuel : Nat} {changed : List Ty} (h : Represents g v S)
    (hrun : g.rebuild fuel v = some (changed, g')) : Represents g' v S :=
  h.rebuildFrom hrun

/-! ### The rounds end -/

omit [HashOrder] in
/-- The registered types are finitely many, so their resolved sizes are bounded. -/
theorem exists_size_bound (g : VersionedEGraph) (v : Version) (S : Store) :
    ∃ bound, ∀ c, ∀ d ∈ (g.view v).dependents c, (d.subst S.resolve).term.size ≤ bound := by
  refine ⟨((g.registered v).map fun d => (d.subst S.resolve).term.size).sum, fun c d hd => ?_⟩
  exact List.le_sum_of_mem (List.mem_map_of_mem (mem_registered.mpr ⟨c, hd⟩))

omit [HashOrder] in
/-- A registered type resolves to a larger type than the child it is registered with. -/
theorem Represents.size_lt_of_dependent (h : Represents g v S) {m d : Ty}
    (hd : d ∈ (g.view v).dependents m) :
    (m.subst S.resolve).term.size < (d.subst S.resolve).term.size := by
  have hm := h.dependents m d hd
  refine Ty.size_child_lt ?_
  rw [Ty.decompose_subst (Ty.rigid_of_mem_children hm)]
  exact List.mem_map_of_mem hm

/-- With the sizes on the worklist within `rounds` of the bound, so many rounds are enough. -/
theorem Represents.rebuildFrom_ends {bound : Nat} (rounds : Nat) :
    ∀ (g : VersionedEGraph) (changed : List Ty), Represents g v S →
    (∀ c, ∀ d ∈ (g.view v).dependents c, (d.subst S.resolve).term.size ≤ bound) →
    (∀ d ∈ (g.state v).worklist, bound < (d.subst S.resolve).term.size + rounds) →
    VersionedEGraph.rebuildFrom (rounds + 2) v (g, changed) ≠ none := by
  induction rounds with
  | zero =>
      intro g changed h hb hw
      rw [VersionedEGraph.rebuildFrom]
      split
      · simp
      -- nothing registered is larger than what is on the worklist, so nothing is pushed
      have hround := h.rebuildRound (P := fun _ => False) changed fun m hm d hd =>
        Nat.lt_irrefl _ (Nat.lt_of_le_of_lt (hb m d hd)
          (Nat.lt_trans (hw m hm) (h.size_lt_of_dependent hd)))
      generalize (g.state v).worklist.foldl (rebuildMerged v) _ = acc at hround ⊢
      obtain ⟨g₁, changed₁⟩ := acc
      have hnil : (g₁.state v).worklist = [] :=
        List.eq_nil_iff_forall_not_mem.mpr hround.worklist
      simp [VersionedEGraph.rebuildFrom, hnil]
  | succ rounds ih =>
      intro g changed h hb hw
      rw [VersionedEGraph.rebuildFrom]
      split
      · simp
      have hround := h.rebuildRound
        (P := fun d => bound < (d.subst S.resolve).term.size + rounds) changed fun m hm d hd => by
          have hlt := h.size_lt_of_dependent hd
          have hle := hw m hm
          exact Nat.lt_of_lt_of_le hle (by omega)
      refine ih _ _ hround.represents (fun c d hd => hb c d ?_) hround.worklist
      rwa [← hround.same.dependents]

/-- Rebuilding ends. -/
theorem Represents.rebuild_ends (h : Represents g v S) :
    ∃ fuel, g.rebuild fuel v ≠ none := by
  obtain ⟨bound, hb⟩ := exists_size_bound g v S
  refine ⟨(bound + 1) + 2, Represents.rebuildFrom_ends (bound + 1) g [] h hb fun d _ => ?_⟩
  exact Nat.lt_add_left _ (Nat.lt_succ_self bound)

end Rebuild

end VersionedEGraph

end Sage
