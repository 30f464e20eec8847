import Sage.Infer.Reachable

/-!
# Inference — `try_unify` computes a most general unifier

The results about probes, carried through branch, rebuild and collapse to the transaction a
caller sees, and to the types it reads back.

* `deepResolve` — a type with every variable replaced by what it is resolved to.
* `tryUnify_mgu` — from any reachable state: success exactly when the recorded constraints have
  a solution that equates the types, and then the deep resolution is a most general one.
-/

namespace Sage

open Loop

namespace VersionedEGraph

/-- Follow representatives through the whole type, as `copy_ty` does when a body is finalized;
there an unresolved variable is a panic, here it stays. -/
def deepResolve (g : VersionedEGraph) (version : Version) : Nat → Ty → Option Ty
  | 0, _ => none
  | fuel + 1, ty =>
      let root := g.find version ty
      match root with
      | .inferVar _ => some root
      | _ =>
          ((decompose root).children.mapM (g.deepResolve version fuel)).bind
            (recompose (decompose root).skeleton)

/-- Every type version `v` has recorded is free of error types. -/
def ErrorFree (g : VersionedEGraph) (v : Version) : Prop :=
  ∀ t, g.getParent v t ≠ t → (g.getParent v t).ErrorFree

/-- `θ` satisfies what `v` records and makes the two types equal. -/
def Unifies (g : VersionedEGraph) (v : Version) (Γ : Restrictions) (a b : Ty)
    (θ : InferVarIndex → Ty) : Prop :=
  g.Solves v Γ θ ∧ a.subst θ = b.subst θ

variable {g g' : VersionedEGraph} {v : Version} {S : Store}

/-! ### Deep resolution -/

theorem mapM_eq_some_map {α β : Type} {f : α → Option β} {k : α → β} {l : List α}
    (h : ∀ a ∈ l, f a = some (k a)) : l.mapM f = some (l.map k) := by
  induction l with
  | nil => rfl
  | cons a l ih =>
      rw [List.mapM_cons, h a List.mem_cons_self, ih fun b hb => h b (List.mem_cons_of_mem _ hb)]
      rfl

/-- A type deeply resolves to its resolution. -/
theorem Represents.deepResolve (h : Represents g v S) (n : Nat) : ∀ t : Ty,
    (t.subst S.resolve).term.size ≤ n → g.deepResolve v n t = some (t.subst S.resolve) := by
  induction n with
  | zero =>
      intro t hle
      exact absurd (Terms.Term.size_pos _) (Nat.not_lt.mpr hle)
  | succ n ih =>
      intro t hle
      rcases (t.subst S.resolve).rigid_or_var with hr | ⟨x, hx⟩
      · obtain ⟨hs, hc⟩ := h.decompose_find hr
        have hf := h.find_rigid.mpr hr
        have hmap : (decompose (g.find v t)).children.mapM (g.deepResolve v n) =
            some ((decompose (g.find v t)).children.map (Ty.subst S.resolve)) := by
          refine mapM_eq_some_map fun c hcm => ih c ?_
          have hmem : c.subst S.resolve ∈ (decompose (t.subst S.resolve)).children := by
            rw [hc]
            exact List.mem_map_of_mem hcm
          exact Nat.le_of_lt_succ (Nat.lt_of_lt_of_le (Ty.size_child_lt hmem) hle)
        have hstep : g.deepResolve v (n + 1) t =
            ((decompose (g.find v t)).children.mapM (g.deepResolve v n)).bind
              (recompose (decompose (g.find v t)).skeleton) := by
          simp only [VersionedEGraph.deepResolve]
          split
          · rename_i x hx
            rw [hx] at hf; exact hf.elim
          · rfl
        rw [hstep, hmap, Option.bind_some, ← hc, ← hs, recompose_decompose]
      · simp [VersionedEGraph.deepResolve, h.find_eq_inferVar.mpr hx, hx]

/-- Every variable deeply resolves to what `ρ` says. -/
def Resolution (g : VersionedEGraph) (v : Version) (ρ : InferVarIndex → Ty) : Prop :=
  ∀ x, ∃ M, ∀ m ≥ M, g.deepResolve v m (.inferVar x) = some (ρ x)

theorem Represents.resolution (h : Represents g v S) : g.Resolution v S.resolve := by
  intro x
  refine ⟨((Ty.inferVar x).subst S.resolve).term.size, fun m hm => ?_⟩
  have hdeep := h.deepResolve m (.inferVar x) hm
  rwa [Ty.subst_inferVar] at hdeep

theorem Resolution.unique {ρ σ : InferVarIndex → Ty} (hρ : g.Resolution v ρ)
    (hσ : g.Resolution v σ) : ρ = σ := by
  funext x
  obtain ⟨M, hM⟩ := hρ x
  obtain ⟨M', hM'⟩ := hσ x
  have h := hM (max M M') (Nat.le_max_left ..)
  rw [hM' (max M M') (Nat.le_max_right ..)] at h
  exact (Option.some.inj h).symm

/-- The resolution of a version without recorded error types is free of them. -/
theorem Represents.errorFree (h : Represents g v S) (hg : g.ErrorFree v) : S.ErrorFree := by
  have hreach : ∀ {t r : Ty}, Chase.Reaches (g.getParent v) t r → t.ErrorFree → r.ErrorFree := by
    intro t r hr
    induction hr with
    | root _ => exact id
    | step hne _ ih => exact fun _ => ih (hg _ hne)
  suffices ∀ (n : Nat) (t : Ty), (t.subst S.resolve).term.size = n → t.ErrorFree →
      (t.subst S.resolve).ErrorFree by
    intro x
    simpa using this _ (.inferVar x) rfl (Ty.all_inferVar.mpr trivial)
  intro n
  induction n using Nat.strongRecOn with
  | ind n ih =>
      intro t hn ht
      have hroot := hreach (find_reaches h.grounded t) ht
      rcases (t.subst S.resolve).rigid_or_var with hr | ⟨x, hx⟩
      · obtain ⟨hs, hc⟩ := h.decompose_find hr
        obtain ⟨hhead, hchildren⟩ := (Ty.all_iff (h.find_rigid.mpr hr)).mp hroot
        refine (Ty.all_iff hr).mpr ⟨hs ▸ hhead, fun c hcm => ?_⟩
        have hlt := Ty.size_child_lt hcm
        rw [hc] at hcm
        obtain ⟨b, hb, rfl⟩ := List.mem_map.mp hcm
        exact ih _ (hn ▸ hlt) b rfl (hchildren b hb)
      · rw [hx]
        exact Ty.all_inferVar.mpr trivial

/-! ### Through branch and collapse -/

theorem Store.Solution.congr {S' : Store} {U : GenericParam → Universe} {Γ : Restrictions}
    {θ : InferVarIndex → Ty} (hr : S'.resolve = S.resolve)
    (hd : ∀ x, S.Unresolved x → S'.restrictions.domain x = S.restrictions.domain x)
    (hc : ∀ x, S.Unresolved x → S'.restrictions.ceiling x = S.restrictions.ceiling x) :
    S'.Solution U Γ θ ↔ S.Solution U Γ θ := by
  have hu : ∀ x, S'.Unresolved x ↔ S.Unresolved x := fun x => by
    rw [Store.Unresolved, Store.Unresolved, hr]
  constructor
  · rintro ⟨hf, hdom, hacc⟩
    refine ⟨hr ▸ hf, fun x hx => ?_, fun x hx => ?_⟩
    · exact hd x hx ▸ hdom x ((hu x).mpr hx)
    · exact hc x hx ▸ hacc x ((hu x).mpr hx)
  · rintro ⟨hf, hdom, hacc⟩
    refine ⟨hr ▸ hf, fun x hx => ?_, fun x hx => ?_⟩
    · rw [hd x ((hu x).mp hx)]
      exact hdom x ((hu x).mp hx)
    · rw [hc x ((hu x).mp hx)]
      exact hacc x ((hu x).mp hx)

section Probe

variable {parent child : Nat}

theorem branchFrom_restrictions (hg : g.WF) (hlive : g.versions.isLive parent = true) :
    (g.branchFrom parent).2.restrictions g.versions.nodes.length = g.restrictions parent := by
  have hview := view_branchFrom hg hlive
  exact restrictions_eq (fun x => ⟨rfl, rfl⟩) (by rw [hview]) (by rw [hview])

theorem collapseInto_restrictions (hg : g.WF) (hc : g.CanCollapse child parent) :
    (g.collapseInto child parent).2.restrictions parent = g.restrictions child := by
  have hcol := collapsed hg hc
  have hview := hcol.view_parent hg hc.2.2.1
  refine restrictions_eq (fun x => ?_) (by rw [hview]) (by rw [hview])
  rw [VersionTree.getVariable, VersionTree.getVariable, hcol.varInfos]
  cases g.versions.varInfos[x]? with
  | none => exact ⟨rfl, rfl⟩
  | some info =>
      simp only [Option.map_some, Option.getD_some]
      split <;> exact ⟨rfl, rfl⟩

/-- A new child represents what its parent does. -/
theorem Represents.branchFrom (h : Represents g parent S)
    (hlive : g.versions.isLive parent = true) (hr : S.restrictions = g.restrictions parent) :
    Represents (g.branchFrom parent).2 g.versions.nodes.length S := by
  have hview := view_branchFrom h.wf hlive
  have hwf := h.wf.branchFrom hlive
  have hlt := VersionTree.lt_length_of_isLive hlive
  have hchild : (g.branchFrom parent).2.versions.isLive g.versions.nodes.length = true :=
    (VersionTree.branchFrom_isLive hlt _).trans (by simp)
  have h' := h.of_view hwf (lt_length_of_isLive hwf hchild) (by rw [hview]) (by rw [hview])
    (by rw [hview])
  rwa [branchFrom_restrictions h.wf hlive, ← hr] at h'

/-- After a collapse the parent represents what the child did. -/
theorem Represents.collapseInto (h : Represents g child S) (hc : g.CanCollapse child parent) :
    Represents (g.collapseInto child parent).2 parent { S with restrictions := g.restrictions child } := by
  have hcol := collapsed h.wf hc
  have hview := hcol.view_parent h.wf hc.2.2.1
  have hlive : (g.collapseInto child parent).2.versions.isLive parent = true :=
    (hcol.isLive parent).mpr ⟨hc.2.1, Nat.ne_of_lt (h.wf.versions.ordered child parent hc.2.2.1)⟩
  have h' := h.of_view hcol.wf (lt_length_of_isLive hcol.wf hlive) (by rw [hview]) (by rw [hview])
    (by rw [hview])
  rwa [collapseInto_restrictions h.wf hc] at h'

end Probe

/-! ### One equality -/

section TryUnify

variable [HashOrder] {a b : Ty}

theorem tryUnify_eq (n : Nat) (g : VersionedEGraph) (v : Version) (a b : Ty) :
    g.tryUnify n v a b = g.tryProbe n v fun child => unifyInProbe n child a b := by
  have hsingle : ∀ child, forEach (fun p : Ty × Ty => unifyInProbe n child p.1 p.2) [(a, b)] =
      unifyInProbe n child a b := fun child => funext fun g => andThen_pure
  rw [tryUnify, tryUnifyBatch, funext hsingle]

omit [HashOrder] in
/-- A call that cannot succeed fails. -/
theorem unifyInProbe_fails (h : Represents g v S)
    (hno : ∀ n g', unifyInProbe n v a b g ≠ some (.ok (), g')) :
    ∃ e g' N, ∀ n ≥ N, unifyInProbe n v a b g = some (.error e, g') := by
  obtain ⟨n₀, hn₀⟩ := unifyInProbe_ends h a b
  obtain ⟨⟨r, g'⟩, hrun⟩ := Option.ne_none_iff_exists'.mp hn₀
  cases r with
  | error e => exact ⟨e, g', n₀, fun n hn => unifyInProbe_mono hn a b _ _ hrun⟩
  | ok u => exact absurd hrun (hno n₀ g')

theorem tryUnify_fails (h : Represents (g.branchFrom v).2 g.versions.nodes.length S)
    (hno : ∀ n probe, unifyInProbe n g.versions.nodes.length a b (g.branchFrom v).2 ≠
      some (.ok (), probe)) :
    ∃ e N, ∀ n ≥ N, ∃ g', g.tryUnify n v a b = some (.error e, g') := by
  obtain ⟨e, probe, N, hrun⟩ := unifyInProbe_fails h hno
  refine ⟨e, N, fun n hn => ⟨probe.discard g.versions.nodes.length, ?_⟩⟩
  rw [tryUnify_eq, tryProbe]
  simp only [branchFrom_fst, hrun n hn]

/-- What one transaction does to the store of its version. -/
theorem tryUnify_spec (h : Represents g v S) (hr : S.restrictions = g.restrictions v)
    (hv : g.IsMutable v) (hS : S.ErrorFree) (ha : a.ErrorFree) (hb : b.ErrorFree) :
    ∃ N, ∀ n ≥ N, ∃ r g', g.tryUnify n v a b = some (r, g') ∧
      ((∃ e, r = .error e ∧ ∀ Γ θ, S.Solution g.placeholderUniverse Γ θ → a.subst θ ≠ b.subst θ) ∨
        ∃ c S', r = .ok c ∧ Represents g' v S' ∧ S'.restrictions = g'.restrictions v ∧
          ∀ Γ θ, S'.Solution g.placeholderUniverse Γ θ ↔
            S.Solution g.placeholderUniverse Γ θ ∧ a.subst θ = b.subst θ) := by
  have hbranch := h.branchFrom hv.1 hr
  obtain ⟨hca, hcb⟩ := covers_span S a b
  obtain ⟨n₀, hn₀⟩ := unifyInProbe_ends hbranch a b
  obtain ⟨⟨r, probe⟩, hrun₀⟩ := Option.ne_none_iff_exists'.mp hn₀
  have hrun : ∀ n ≥ n₀, unifyInProbe n g.versions.nodes.length a b (g.branchFrom v).2 =
      some (r, probe) := fun n hn => unifyInProbe_mono hn a b _ _ hrun₀
  obtain ⟨S', hunified⟩ := unifyInProbe_spec n₀ a b _ S r probe hbranch hca hcb hrun₀
  have hU : (g.branchFrom v).2.placeholderUniverse = g.placeholderUniverse := rfl
  rw [hU] at hunified
  cases r with
  | error e =>
      refine ⟨n₀, fun n hn => ⟨.error e, probe.discard g.versions.nodes.length, ?_, .inl ⟨e, rfl, ?_⟩⟩⟩
      · rw [tryUnify_eq, tryProbe]
        simp only [branchFrom_fst, hrun n hn]
      · exact hunified.not_solution e rfl hS ⟨ha, hb⟩
  | ok u =>
      obtain ⟨n₁, hn₁⟩ := hunified.represents.rebuild_ends
      obtain ⟨⟨changed, rebuilt⟩, hrebuild₁⟩ := Option.ne_none_iff_exists'.mp hn₁
      have hrebuild : ∀ n ≥ n₁, probe.rebuild n g.versions.nodes.length = some (changed, rebuilt) :=
        fun n hn => rebuildFrom_mono hn _ _ hrebuild₁
      have hlocal := (Local.unifyInProbe n₀ hrun₀).trans (Local.rebuild _ hrebuild₁)
      have hc := probe_canCollapse hv.1 hv.2 hlocal
      have hrebuilt := hunified.represents.rebuild hrebuild₁
      have hcollapsed := hrebuilt.collapseInto hc
      have hrestrictions := collapseInto_restrictions hrebuilt.wf hc
      refine ⟨max n₀ n₁, fun n hn => ?_⟩
      have hrun := hrun n (Nat.le_trans (Nat.le_max_left _ _) hn)
      have hrebuild := hrebuild n (Nat.le_trans (Nat.le_max_right _ _) hn)
      refine ⟨.ok ((), (rebuilt.collapseInto g.versions.nodes.length v).1),
        (rebuilt.collapseInto g.versions.nodes.length v).2, ?_,
        .inr ⟨_, _, rfl, hcollapsed, hrestrictions.symm, fun Γ θ => ?_⟩⟩
      · rw [tryUnify_eq, tryProbe]
        simp only [branchFrom_fst, hrun, hrebuild]
      · rw [← hunified.solution_iff rfl hS ⟨ha, hb⟩ Γ θ]
        exact Store.Solution.congr rfl (fun x hx => (hrebuilt.domain x hx).symm)
          fun x hx => (hrebuilt.ceiling x hx).symm

/-- `try_unify` computes a most general unifier.  With enough fuel it returns; it succeeds
exactly when some assignment satisfies what the version records and makes the types equal; and
then the deep resolution of every variable is such an assignment, of which every other one is
an instance. -/
theorem tryUnify_mgu (hg : Reachable Bound.IsExact g) (hv : g.IsMutable v)
    (hfree : g.ErrorFree v) (ha : a.ErrorFree) (hb : b.ErrorFree) :
    ∃ N, ∀ n ≥ N, ∃ r g', g.tryUnify n v a b = some (r, g') ∧
      ((∃ c, r = .ok c) ↔ ∃ Γ θ, g.Unifies v Γ a b θ) ∧
      ((∃ c, r = .ok c) → ∃ σ : InferVarIndex → Ty,
        (∀ x, ∃ M, ∀ m ≥ M, g'.deepResolve v m (.inferVar x) = some (σ x)) ∧
        g.Unifies v (g'.restrictions v) a b σ ∧
        ∀ Γ θ, g.Unifies v Γ a b θ → ∀ x, (σ x).subst θ = θ x) := by
  obtain ⟨S₀, h₀⟩ := (hg.modelled fun _ => id).store v hv.1
  -- the same store, with the restrictions the version records
  have h := h₀.of_view h₀.wf h₀.lt rfl rfl rfl
  have hfree := h.errorFree hfree
  obtain ⟨N, hN⟩ := tryUnify_spec h rfl hv hfree ha hb
  have hiff : ∀ Γ θ, g.Unifies v Γ a b θ ↔
      Store.Solution _ g.placeholderUniverse Γ θ ∧ a.subst θ = b.subst θ := fun Γ θ =>
    and_congr_left fun _ => h.solution_iff
  refine ⟨N, fun n hn => ?_⟩
  obtain ⟨r, g', hrun, ⟨e, rfl, hnone⟩ | ⟨c, S', rfl, h', hr', hsol⟩⟩ := hN n hn
  · refine ⟨_, g', hrun, ⟨?_, ?_⟩, ?_⟩
    · rintro ⟨c, hc⟩; cases hc
    · rintro ⟨Γ, θ, hθ⟩
      exact absurd ((hiff Γ θ).mp hθ).2 (hnone Γ θ ((hiff Γ θ).mp hθ).1)
    · rintro ⟨c, hc⟩; cases hc
  · have hself : g.Unifies v (g'.restrictions v) a b S'.resolve :=
      (hiff _ _).mpr ((hsol _ _).mp (hr' ▸ S'.solution_self g.placeholderUniverse))
    refine ⟨_, g', hrun, ⟨fun _ => ⟨_, _, hself⟩, fun _ => ⟨c, rfl⟩⟩, fun _ => ⟨S'.resolve, ?_,
      hself, fun Γ θ hθ => ((hsol Γ θ).mpr ((hiff Γ θ).mp hθ)).factors⟩⟩
    intro x
    refine ⟨((Ty.inferVar x).subst S'.resolve).term.size, fun m hm => ?_⟩
    have hdeep := h'.deepResolve m (.inferVar x) hm
    rwa [Ty.subst_inferVar] at hdeep

end TryUnify

/-- One fresh variable, equated with `bool` in the root version. -/
theorem tryUnify_mgu_fresh :
    ∃ N, ∀ n ≥ N, ∃ r g', (VersionedEGraph.new.allocVarInDomain 0 0 .any).2.tryUnify n 0
        (.inferVar 0) .bool = some (r, g') ∧
      ((∃ c, r = .ok c) ↔ ∃ Γ θ,
        (VersionedEGraph.new.allocVarInDomain 0 0 .any).2.Unifies 0 Γ (.inferVar 0) .bool θ) ∧
      ((∃ c, r = .ok c) → ∃ σ : InferVarIndex → Ty,
        (∀ x, ∃ M, ∀ m ≥ M, g'.deepResolve 0 m (.inferVar x) = some (σ x)) ∧
        (VersionedEGraph.new.allocVarInDomain 0 0 .any).2.Unifies 0 (g'.restrictions 0)
          (.inferVar 0) .bool σ ∧
        ∀ Γ θ, (VersionedEGraph.new.allocVarInDomain 0 0 .any).2.Unifies 0 Γ (.inferVar 0) .bool θ →
          ∀ x, (σ x).subst θ = θ x) := by
  have hroot : VersionedEGraph.new.IsMutable 0 := ⟨by decide, by decide⟩
  exact tryUnify_mgu (.step .new (.alloc hroot 0 .any)) ⟨by decide, by decide⟩
    (fun t ht => absurd rfl ht) (Ty.all_inferVar.mpr trivial)
    ((Ty.all_iff (by trivial)).mpr ⟨by simp [decompose, leaf], by simp [decompose, leaf]⟩)

end VersionedEGraph

end Sage
