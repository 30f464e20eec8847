import Sage.Infer.Isolation
import Sage.Infer.TryUnify
import Sage.Infer.Wakes

/-!
# Inference — every version accounts for its differences

A child starts with the wakes of nobody and its parent's revision.  From then on, whatever
branches, probes and collapses below it, its wakes and its revision account for what it sees
otherwise than its parent, and where only exact bounds are recorded, it resolves whatever its
parent does.

* `RefinesStore` — a change that keeps a version representing a store and takes no equality back.
* `Worked` — a transaction, with what it published.
* `Accounted`, `AllAccounted` — the invariant; `AllAccounted.step` — every step keeps it.
-/

namespace Sage

open Loop

/-- `S'` equates what `S` equates. -/
def Store.Equates (S S' : Store) : Prop :=
  ∀ t u : Ty, t.subst S.resolve = u.subst S.resolve → t.subst S'.resolve = u.subst S'.resolve

theorem Store.Equates.of_resolve {S S' : Store} (h : S'.resolve = S.resolve) : S.Equates S' :=
  fun _ _ he => by rwa [h]

theorem Store.Equates.trans {S S' S'' : Store} (h : S.Equates S') (h' : S'.Equates S'') :
    S.Equates S'' := fun t u he => h' t u (h t u he)

/-- What is resolved through the finer store first is resolved all the same. -/
theorem Store.Equates.subst_subst {S S' : Store} (h : S.Equates S') (t : Ty) :
    (t.subst S.resolve).subst S'.resolve = t.subst S'.resolve := by
  refine h _ _ ?_
  rw [Ty.subst_subst]
  exact Ty.subst_congr fun x _ => S.idempotent x

namespace VersionedEGraph

variable {g g' g'' : VersionedEGraph} {v w parent child : Nat} {keeps : Prop}

/-! ### Stores that only grow finer -/

/-- A change of version `v` after which it represents a store that equates no less. -/
def RefinesStore (v : Version) (g g' : VersionedEGraph) : Prop :=
  ∀ S, Represents g v S → ∃ S', Represents g' v S' ∧ S.Equates S'

namespace RefinesStore

theorem of_same (h : ∀ S, Represents g v S → ∃ S', Represents g' v S' ∧ S'.resolve = S.resolve) :
    RefinesStore v g g' := fun S hS => by
  obtain ⟨S', hS', hr⟩ := h S hS
  exact ⟨S', hS', .of_resolve hr⟩

theorem refl (v : Version) (g : VersionedEGraph) : RefinesStore v g g :=
  of_same fun S hS => ⟨S, hS, rfl⟩

theorem trans (h : RefinesStore v g g') (h' : RefinesStore v g' g'') : RefinesStore v g g'' := by
  intro S hS
  obtain ⟨S', hS', he⟩ := h S hS
  obtain ⟨S'', hS'', he'⟩ := h' S' hS'
  exact ⟨S'', hS'', he.trans he'⟩

/-- Pointers, bounds and dependents that stay as they are. -/
theorem of_view (hwf : g.WF → g'.WF) (hlt : v < g.states.length → v < g'.states.length)
    (hview : g.WF → (g'.view v).parent = (g.view v).parent ∧
      (g'.view v).bound = (g.view v).bound ∧ (g'.view v).dependents = (g.view v).dependents) :
    RefinesStore v g g' :=
  of_same fun _ hS =>
    have ⟨hp, hb, hd⟩ := hview hS.wf
    ⟨_, hS.of_view (hwf hS.wf) (hlt hS.lt) hp hb hd, rfl⟩

theorem registerPlaceholder (param : GenericParam) (u : Universe) :
    RefinesStore v g (g.registerPlaceholder param u) :=
  of_view (fun h => ⟨h.versions, h.length⟩) id fun _ => ⟨rfl, rfl, rfl⟩

theorem allocVarInDomain (hv : g.versions.isLive v = true) (u : Universe) (domain : InferDomain) :
    RefinesStore v g (g.allocVarInDomain v u domain).2 := by
  have hl := Local.allocVarInDomain g v u domain hv
  refine of_view hl.wf (fun h => hl.length ▸ h) fun hg => ?_
  rw [Local.view_allocVarInDomain hg hv u domain]
  exact ⟨rfl, rfl, rfl⟩

theorem findMut (ty : Ty) : RefinesStore v g (g.findMut v ty).2 :=
  of_same fun S hS => ⟨S, hS.findMut ty, rfl⟩

theorem rebuild [HashOrder] {fuel : Nat} {changed : List Ty}
    (h : g.rebuild fuel v = some (changed, g')) : RefinesStore v g g' :=
  of_same fun S hS => ⟨S, hS.rebuild h, rfl⟩

theorem unifyInProbe {fuel : Nat} {left right : Ty} {r : Except UnifyError Unit}
    (hrun : VersionedEGraph.unifyInProbe fuel v left right g = some (r, g')) :
    RefinesStore v g g' := by
  intro S hS
  obtain ⟨hl, hr⟩ := covers_span S left right
  obtain ⟨S', h'⟩ := unifyInProbe_spec fuel left right g S r g' hS hl hr hrun
  exact ⟨S', h'.represents, h'.narrows.equates⟩

/-- What `trySetBound` does with an unresolved variable on the probe, for an exact bound. -/
theorem setBound {fuel : Nat} {x : InferVarIndex} {bound : Bound} {r : Except UnifyError Unit}
    (hb : bound.IsExact)
    (hrun : andThen
      (match bound with
        | .none => some (.ok (), g)
        | .atLeast boundTy =>
            match makeAccessible v x (g.currentUniverse v x) fuel boundTy ([], g) with
            | none => none
            | some (r, (_, g)) => some (r, g)
        | .exactly boundTy => VersionedEGraph.unifyInProbe fuel v (.inferVar x) boundTy g)
      (fun _ g => some (.ok (), g.setBoundIn v (.inferVar x) bound)) = some (r, g')) :
    RefinesStore v g g' := by
  intro S hS
  cases bound with
  | none =>
      simp only [andThen, Option.some.injEq, Prod.mk.injEq] at hrun
      exact ⟨S, hrun.2 ▸ hS.setBoundIn fun t ht => (by cases ht), .of_resolve rfl⟩
  | atLeast t => exact hb.elim
  | exactly t =>
      cases r with
      | error e =>
          rcases andThen_eq_error.mp hrun with hu | ⟨_, _, -, hset⟩
          · exact unifyInProbe hu S hS
          · cases hset
      | ok u =>
          obtain ⟨_, g₁, hu, hset⟩ := andThen_eq_ok.mp hrun
          simp only [Option.some.injEq, Prod.mk.injEq, true_and] at hset
          obtain ⟨hl, hr⟩ := covers_span S (.inferVar x) t
          obtain ⟨S', h'⟩ := unifyInProbe_spec fuel _ t g S _ g₁ hS hl hr hu
          -- the bound says what the unification made true
          refine ⟨S', hset ▸ h'.represents.setBoundIn fun u hu => ?_, h'.narrows.equates⟩
          obtain rfl := Option.some.inj hu
          have he := h'.equates rfl
          rw [Ty.subst_inferVar] at he
          exact he.symm

/-- The operation of `installErrorRecovery` on the probe. -/
theorem recovery {x : InferVarIndex} {e : ErrorReported}
    (hx : g.find v (.inferVar x) = .inferVar x) :
    RefinesStore v g
      ((g.setBoundIn v (.inferVar x) (.exactly (.error e))).union v (.inferVar x) (.error e)).2 := by
  intro S hS
  have hu : S.Unresolved x :=
    Store.unresolved_of_eq (t := .inferVar x) (hS.find_eq_inferVar.mp hx)
  have hocc : x ∉ ((Ty.error e).subst S.resolve).vars := fun hm => by
    obtain ⟨c, hc, -⟩ := (Ty.mem_vars_iff (Ty.rigid_subst (t := .error e) trivial _)).mp hm
    exact absurd hc List.not_mem_nil
  refine ⟨_, (hS.bind (t := .error e) hu trivial hocc rfl rfl).1, fun t u he => ?_⟩
  rw [Store.extend_resolve, Store.extend_resolve, he]

end RefinesStore

/-! ### Transactions -/

/-- A change of `v` that accounts for what it does, and takes no equality back. -/
def Refined (keeps : Prop) (v : Version) (g g' : VersionedEGraph) : Prop :=
  Tracks v g g' ∧ (keeps → RefinesStore v g g')

namespace Refined

theorem refl (v : Version) (g : VersionedEGraph) : Refined keeps v g g :=
  ⟨.refl v g, fun _ => .refl v g⟩

theorem trans (h : Refined keeps v g g') (h' : Refined keeps v g' g'') : Refined keeps v g g'' :=
  ⟨h.1.trans h'.1, fun hk => (h.2 hk).trans (h'.2 hk)⟩

theorem unifyInProbe {fuel : Nat} {left right : Ty} {r : Except UnifyError Unit}
    (hrun : VersionedEGraph.unifyInProbe fuel v left right g = some (r, g')) :
    Refined keeps v g g' :=
  ⟨(Tracks.writes v).unifyInProbe _ hrun, fun _ => .unifyInProbe hrun⟩

theorem rebuild [HashOrder] {fuel : Nat} {changed : List Ty}
    (h : g.rebuild fuel v = some (changed, g')) : Refined keeps v g g' :=
  ⟨.rebuild h, fun _ => .rebuild h⟩

end Refined

/-- A transaction on a probe of `parent`: discarded, or collapsed with what it published. -/
def Worked (keeps : Prop) (g : VersionedEGraph) (parent : Version) (effects : Option CommitEffects)
    (g' : VersionedEGraph) : Prop :=
  ∃ probe, Refined keeps g.versions.nodes.length (g.branchFrom parent).2 probe ∧
    (effects = none ∧ g' = probe.discard g.versions.nodes.length ∨
      effects = some (probe.collapseInto g.versions.nodes.length parent).1 ∧
        g' = (probe.collapseInto g.versions.nodes.length parent).2)

section Transactions

variable [HashOrder] {fuel : Nat}

theorem worked_tryProbe {α : Type}
    {operation : Version → VersionedEGraph → Outcome UnifyError VersionedEGraph α}
    (hop : ∀ child g r g', operation child g = some (r, g') → Refined keeps child g g')
    {r : Except UnifyError (α × CommitEffects)}
    (hrun : g.tryProbe fuel parent operation = some (r, g')) :
    Worked keeps g parent (r.toOption.map Prod.snd) g' := by
  simp only [tryProbe] at hrun
  split at hrun
  · cases hrun
  · rename_i hoperation
    split at hrun
    · cases hrun
    · rename_i rebuilt hrebuild
      simp only [Option.some.injEq, Prod.mk.injEq] at hrun
      obtain ⟨rfl, rfl⟩ := hrun
      exact ⟨rebuilt, (hop _ _ _ _ hoperation).trans (.rebuild hrebuild), .inr ⟨rfl, rfl⟩⟩
  · rename_i probe hoperation
    simp only [Option.some.injEq, Prod.mk.injEq] at hrun
    obtain ⟨rfl, rfl⟩ := hrun
    exact ⟨probe, hop _ _ _ _ hoperation, .inl ⟨rfl, rfl⟩⟩

theorem worked_tryUnifyBatch {equalities : List (Ty × Ty)}
    {r : Except UnifyError (Unit × CommitEffects)}
    (hrun : g.tryUnifyBatch fuel parent equalities = some (r, g')) :
    Worked keeps g parent (r.toOption.map Prod.snd) g' := by
  refine worked_tryProbe (fun child g r g' hop => ?_) hrun
  exact forEach_invariant (Refined.refl child) Refined.trans
    (fun _ _ _ _ _ hp => Refined.unifyInProbe hp) hop

theorem worked_tryUnifyRequired {left right : Ty}
    {r : Except RequiredUnifyFailure CommitEffects}
    (hrun : g.tryUnifyRequired fuel parent left right = some (r, g')) :
    Worked keeps g parent r.toOption g' := by
  simp only [tryUnifyRequired] at hrun
  split at hrun
  · cases hrun
  · rename_i hunify
    split at hrun
    · cases hrun
    · rename_i rebuilt hrebuild
      simp only [Option.some.injEq, Prod.mk.injEq] at hrun
      obtain ⟨rfl, rfl⟩ := hrun
      exact ⟨rebuilt, (Refined.unifyInProbe hunify).trans (.rebuild hrebuild), .inr ⟨rfl, rfl⟩⟩
  · rename_i probe hunify
    simp only [Option.some.injEq, Prod.mk.injEq] at hrun
    obtain ⟨rfl, rfl⟩ := hrun
    exact ⟨probe, Refined.unifyInProbe hunify, .inl ⟨rfl, rfl⟩⟩

theorem worked_trySetBound {variableTy : Ty} {bound : Bound}
    {r : Except UnifyError (Unit × CommitEffects)} (hb : keeps → bound.IsExact)
    (hrun : g.trySetBound fuel parent variableTy bound = some (r, g')) :
    Worked keeps g parent (r.toOption.map Prod.snd) g' := by
  refine worked_tryProbe (fun child g r g' hop => ?_) hrun
  simp only at hop
  split at hop
  · rename_i x hx
    rw [hx] at hop
    exact ⟨(Tracks.writes child).setBound hop, fun hk => .setBound (hb hk) hop⟩
  · simp only [Option.some.injEq, Prod.mk.injEq] at hop
    exact hop.2 ▸ Refined.refl _ _

theorem worked_installErrorRecovery {variableTy errorTy : Ty}
    {r : Except UnifyError (Unit × CommitEffects)}
    (hrun : g.installErrorRecovery fuel parent variableTy errorTy = some (r, g')) :
    Worked keeps g parent (r.toOption.map Prod.snd) g' := by
  refine worked_tryProbe (fun child g r g' hop => ?_) hrun
  simp only at hop
  split at hop
  · rename_i x e hx he
    simp only [Option.some.injEq, Prod.mk.injEq] at hop
    obtain ⟨-, rfl⟩ := hop
    rw [hx, he]
    refine ⟨(Tracks.setBoundIn g child _ _).trans (Tracks.union _ child _ _), fun _ S h => ?_⟩
    exact RefinesStore.recovery (hx ▸ find_find h.grounded _) S h
  · simp only [Option.some.injEq, Prod.mk.injEq] at hop
    exact hop.2 ▸ Refined.refl _ _

/-! ### The application of a response -/

/-- A change of `child`, where it is live, under the placeholders `U`. -/
def Imported (child : Version) (U : GenericParam → Universe) (g g' : VersionedEGraph) : Prop :=
  g.versions.isLive child = true → g.placeholderUniverse = U →
    Tracks child g g' ∧ RefinesStore child g g'

section Import

variable {U : GenericParam → Universe}

omit [HashOrder] in
theorem Imported.refl (child : Version) (g : VersionedEGraph) : Imported child U g g :=
  fun _ _ => ⟨.refl child g, .refl child g⟩

omit [HashOrder] in
theorem Imported.trans (h : Imported child U g g') (h' : Imported child U g' g'') :
    Imported child U g g'' := by
  intro hlive hU
  obtain ⟨ht, hr⟩ := h hlive hU
  obtain ⟨ht', hr'⟩ := h' ((ht.isLive child).trans hlive) (ht.placeholderUniverse_eq.trans hU)
  exact ⟨ht.trans ht', hr.trans hr'⟩

omit [HashOrder] in
theorem imported_input {base : Universe} {input : CanonicalVarInfo × CallerCanonicalVar}
    (hinput : ∀ param, input.2 = .rigid param → U param = base + input.1.relativeUniverse)
    {acc acc' : TypeMapping × VersionedEGraph} {r : Except ApplyResponseError Unit}
    (hrun : importInput base input acc = some (r, acc')) : Imported child U acc.2 acc'.2 := by
  have hi : Imports child U acc.2 acc'.2 := imports_importInput hinput hrun
  have hview : acc'.2.view child = acc.2.view child ∧
      acc'.2.versions.varInfos = acc.2.versions.varInfos ∧
        RefinesStore child acc.2 acc'.2 := by
    simp only [importInput] at hrun
    split at hrun
    · split at hrun
      · simp only [Option.some.injEq, Prod.mk.injEq] at hrun
        exact hrun.2 ▸ ⟨rfl, rfl, .refl _ _⟩
      · simp only [Option.some.injEq, Prod.mk.injEq] at hrun
        exact hrun.2 ▸ ⟨rfl, rfl, .registerPlaceholder _ _⟩
    all_goals
      simp only [Option.some.injEq, Prod.mk.injEq] at hrun
      exact hrun.2 ▸ ⟨rfl, rfl, .refl _ _⟩
  intro hlive hU
  refine ⟨⟨(hi hlive hU).1, fun _ _ _ => ?_⟩, hview.2.2⟩
  rw [hview.1]
  exact .refl _ _

omit [HashOrder] in
theorem imported_binder {base : Universe} {info : ResponseVarInfo}
    {acc acc' : TypeMapping × VersionedEGraph} {r : Except ApplyResponseError Unit}
    (hrun : importBinder child base info acc = some (r, acc')) :
    Imported child U acc.2 acc'.2 := by
  simp only [importBinder] at hrun
  split at hrun
  · simp only [Option.some.injEq, Prod.mk.injEq] at hrun
    exact hrun.2 ▸ Imported.refl child acc.2
  · rename_i u _
    simp only [Option.some.injEq, Prod.mk.injEq] at hrun
    rw [← hrun.2]
    exact fun hlive _ => ⟨Tracks.allocVarInDomain acc.2 child hlive u info.domain,
      .allocVarInDomain hlive u info.domain⟩

omit [HashOrder] in
theorem imported_entry {inputs : List (CanonicalVarInfo × CallerCanonicalVar)}
    {mapping : TypeMapping} {entry : SubstEntry} {r : Except ApplyResponseError Unit}
    (hrun : importEntry fuel child inputs mapping entry g = some (r, g')) :
    Imported child U g g' := by
  have key : ∀ {left right : Ty} {r : Except UnifyError Unit} {g₁ : VersionedEGraph},
      unifyInProbe fuel child left right g = some (r, g₁) → Imported child U g g₁ :=
    fun h _ _ => ⟨(Tracks.writes child).unifyInProbe _ h, .unifyInProbe h⟩
  simp only [importEntry] at hrun
  split at hrun
  · split at hrun
    · cases hrun
    · rename_i h
      simp only [Option.some.injEq, Prod.mk.injEq] at hrun
      exact hrun.2 ▸ key h
    · rename_i h
      simp only [Option.some.injEq, Prod.mk.injEq] at hrun
      exact hrun.2 ▸ key h
  · cases hrun

omit [HashOrder] in
/-- The import of a response, part by part. -/
theorem imported_response {query : GoalQueryData} {mapping : CanonicalMapping}
    {response : QueryResult} {r : Except ApplyResponseError AppliedCertainty}
    (hm : ∀ input ∈ query.canonicalVars.zip mapping.inputs, ∀ param, input.2 = .rigid param →
      U param = mapping.absoluteUniverseBase + input.1.relativeUniverse)
    (hrun : importResponse fuel child query mapping response g = some (r, g')) :
    Imported child U g g' := by
  have himport : ∀ {r : Except ApplyResponseError Unit} {acc : TypeMapping × VersionedEGraph},
      andThen (forEach (importInput mapping.absoluteUniverseBase)
        (query.canonicalVars.zip mapping.inputs) (fun _ => none, g)) (fun _ =>
          forEach (importBinder child mapping.absoluteUniverseBase) response.boundVars) =
        some (r, acc) → Imported child U g acc.2 := by
    intro r acc h
    refine andThen_invariant (R := fun s t => Imported child U s.2 t.2) (s := (fun _ => none, g))
      Imported.trans (fun _ _ h => ?_) (fun _ _ _ _ _ h => ?_) h
    · exact forEach_invariant (R := fun s t => Imported child U s.2 t.2)
        (fun s => Imported.refl child s.2) Imported.trans
        (fun input hi _ _ _ h => imported_input (hm input hi) h) h
    · exact forEach_invariant (R := fun s t => Imported child U s.2 t.2)
        (fun s => Imported.refl child s.2) Imported.trans
        (fun _ _ _ _ _ h => imported_binder h) h
  simp only [importResponse] at hrun
  split at hrun
  · cases hrun
  · rename_i h
    simp only [Option.some.injEq, Prod.mk.injEq] at hrun
    exact hrun.2 ▸ himport h
  · rename_i types g₁ h
    refine (himport h).trans ?_
    refine andThen_invariant (R := Imported child U) Imported.trans (fun _ _ h => ?_)
      (fun _ _ _ _ _ h => ?_) hrun
    · exact forEach_invariant (R := Imported child U) (Imported.refl child) Imported.trans
        (fun _ _ _ _ _ h => imported_entry h) h
    · simp only [Option.some.injEq, Prod.mk.injEq] at h
      exact h.2 ▸ Imported.refl child _

end Import

/-- Applying a response publishes nothing and changes nothing, or it is a transaction. -/
theorem worked_applyQueryResponse {query : GoalQueryData} {mapping : CanonicalMapping}
    {response : QueryResult} {r : Except ApplyResponseError AppliedResponse}
    (hlive : g.versions.isLive parent = true) (hm : g.Registered query mapping)
    (hrun : g.applyQueryResponse fuel parent query mapping response = some (r, g')) :
    (g' = g ∧ ∀ a, r = .ok a → a.effects = ⟨[], g.semanticRevision parent⟩) ∨
      Worked keeps g parent (r.toOption.map AppliedResponse.effects) g' := by
  have hchild : (g.branchFrom parent).2.versions.isLive g.versions.nodes.length = true := by
    rw [show (g.branchFrom parent).2.versions = (g.versions.branchFrom parent).2 from rfl,
      VersionTree.branchFrom_isLive (VersionTree.lt_length_of_isLive hlive)]
    simp
  simp only [applyQueryResponse] at hrun
  split at hrun
  · simp only [Option.some.injEq, Prod.mk.injEq] at hrun
    exact .inl ⟨hrun.2.symm, fun a ha => by simp [← hrun.1] at ha⟩
  split at hrun
  · simp only [Option.some.injEq, Prod.mk.injEq] at hrun
    refine .inl ⟨hrun.2.symm, fun a ha => ?_⟩
    rw [← hrun.1, Except.ok.injEq] at ha
    exact ha ▸ rfl
  split at hrun
  · simp only [Option.some.injEq, Prod.mk.injEq] at hrun
    exact .inl ⟨hrun.2.symm, fun a ha => by simp [← hrun.1] at ha⟩
  split at hrun
  · cases hrun
  · rename_i probe h
    simp only [Option.some.injEq, Prod.mk.injEq] at hrun
    obtain ⟨rfl, rfl⟩ := hrun
    obtain ⟨ht, hr⟩ := imported_response hm h hchild rfl
    exact .inr ⟨probe, ⟨ht, fun _ => hr⟩, .inl ⟨rfl, rfl⟩⟩
  · rename_i probe h
    obtain ⟨ht, hr⟩ := imported_response hm h hchild rfl
    split at hrun
    · cases hrun
    · rename_i rebuilt hrebuild
      simp only [Option.some.injEq, Prod.mk.injEq] at hrun
      obtain ⟨rfl, rfl⟩ := hrun
      have hk : Refined keeps g.versions.nodes.length (g.branchFrom parent).2 probe :=
        ⟨ht, fun _ => hr⟩
      exact .inr ⟨rebuilt, hk.trans (.rebuild hrebuild), .inr ⟨rfl, rfl⟩⟩

/-- Every transaction changes nothing, or works on a probe. -/
theorem Transaction.worked {bounds : Bound → Prop} {ok : Bool}
    (hlive : g.versions.isLive parent = true) (h : Transaction bounds g parent ok g') :
    g' = g ∨ ∃ effects, effects.isSome = ok ∧
      Worked (∀ b, bounds b → b.IsExact) g parent effects g' := by
  cases h with
  | tryUnifyBatch hrun => exact .inr ⟨_, by cases ‹Except _ _› <;> rfl, worked_tryUnifyBatch hrun⟩
  | tryUnifyRequired hrun =>
      exact .inr ⟨_, by cases ‹Except _ _› <;> rfl, worked_tryUnifyRequired hrun⟩
  | trySetBound hb hrun =>
      exact .inr ⟨_, by cases ‹Except _ _› <;> rfl, worked_trySetBound (fun hk => hk _ hb) hrun⟩
  | installErrorRecovery hrun =>
      exact .inr ⟨_, by cases ‹Except _ _› <;> rfl, worked_installErrorRecovery hrun⟩
  | applyQueryResponse hm hrun =>
      rcases worked_applyQueryResponse hlive hm hrun with ⟨h, -⟩ | h
      · exact .inl h
      · exact .inr ⟨_, by cases ‹Except _ _› <;> rfl, h⟩

end Transactions

/-! ### The invariant -/

/-- What `child` sees otherwise than `parent`, whose variables are known, it accounts for; and
where stores are kept, it equates what `parent` does. -/
structure Accounted (keeps : Prop) (g : VersionedEGraph) (parent child : Version) : Prop where
  tracked : View.Tracked {i | g.versions.canAccess parent i = true} (g.view parent).opened
    (g.view child)
  equates : keeps → ∀ S, Represents g parent S → ∃ S', Represents g child S' ∧ S.Equates S'

structure AllAccounted (keeps : Prop) (g : VersionedEGraph) : Prop where
  valid : g.Valid
  accounted : ∀ {child parent}, g.versions.isLive child = true →
    g.versions.parent child = some parent → g.Accounted keeps parent child

theorem canAccess_of_observe (h : g'.observe w = g.observe w) (i : InferVarIndex) :
    g'.versions.canAccess w i = g.versions.canAccess w i := by
  have hc := congrFun (congrArg Observation.ceiling h) i
  simp only [observe] at hc
  split at hc <;> split at hc
  · rename_i h h'
    rw [h, h']
  · cases hc
  · cases hc
  · rename_i h h'
    rw [Bool.not_eq_true] at h h'
    rw [h, h']

/-- A version that reads the same layers represents the same store. -/
theorem refinesStore_of_layers (hg' : g'.WF) (hlive : g'.versions.isLive w = true)
    (hl : g'.layers w = g.layers w) : RefinesStore w g g' := by
  intro S hS
  have hview : g'.view w = g.view w := by rw [view, view, hl]
  exact ⟨_, hS.of_view hg' (lt_length_of_isLive hg' hlive) (by rw [hview]) (by rw [hview])
    (by rw [hview]), .of_resolve rfl⟩

/-- An account stays one when the parent is as before and the child's change is accounted for. -/
theorem Accounted.next (h : g.Accounted keeps parent child) (hg : g.WF)
    (hlive : g.versions.isLive parent = true) (ho : g'.observe parent = g.observe parent)
    (hl : g'.layers parent = g.layers parent)
    (ht : View.Tracked {i | g.versions.canAccess parent i = true} (g.view child) (g'.view child))
    (hr : keeps → RefinesStore child g g') : g'.Accounted keeps parent child where
  tracked := by
    have hknown : {i | g'.versions.canAccess parent i = true} =
        {i | g.versions.canAccess parent i = true} := by
      ext i
      rw [Set.mem_ofPred_eq, Set.mem_ofPred_eq, canAccess_of_observe ho]
    rw [hknown, show g'.view parent = g.view parent by rw [view, view, hl]]
    exact h.tracked.trans ht fun _ => id
  equates hk S hS := by
    obtain ⟨T, hT, he⟩ := refinesStore_of_layers hg hlive hl.symm S hS
    obtain ⟨U, hU, he'⟩ := h.equates hk T hT
    obtain ⟨V, hV, he''⟩ := hr hk U hU
    exact ⟨V, hV, (he.trans he').trans he''⟩

/-- Two versions that read what they read before. -/
theorem Accounted.of_layers (h : g.Accounted keeps parent child) (hg : g.WF) (hg' : g'.WF)
    (hp : g.versions.isLive parent = true) (hc : g'.versions.isLive child = true)
    (ho : g'.observe parent = g.observe parent) (hpl : g'.layers parent = g.layers parent)
    (hcl : g'.layers child = g.layers child) : g'.Accounted keeps parent child := by
  refine h.next hg hp ho hpl ?_ fun _ => refinesStore_of_layers hg' hc hcl
  rw [show g'.view child = g.view child by rw [view, view, hcl]]
  exact .refl _ _

theorem lt_of_canAccess {i : InferVarIndex} (h : g.versions.canAccess w i = true) :
    i < g.versions.varInfos.length := by
  obtain ⟨info, hi, -⟩ := getElem?_of_canAccess h
  exact (List.getElem?_eq_some_iff.mp hi).1

/-- What a version can access, its children can. -/
theorem canAccess_child (hg : g.WF) (hp : g.versions.parent child = some parent)
    {i : InferVarIndex} (h : g.versions.canAccess parent i = true) :
    g.versions.canAccess child i = true := by
  obtain ⟨info, hi, ha⟩ := getElem?_of_canAccess h
  rw [VersionTree.canAccess, hi]
  have hmem : info.owner ∈ g.versions.ancestors parent := by
    simpa [VersionTree.isAncestor] using ha
  have hmem' : info.owner ∈ g.versions.ancestors child := by
    rw [VersionTree.ancestors_eq hg.versions.ordered, hp]
    exact List.mem_cons_of_mem _ hmem
  simpa [VersionTree.isAncestor] using hmem'

namespace AllAccounted

theorem new : AllAccounted keeps .new where
  valid := .new
  accounted hc hcp := by
    obtain rfl := new_eq_zero hc
    cases hcp

/-- A change of a leaf that it accounts for. -/
theorem of_refined (h : AllAccounted keeps g) (hv : g.IsMutable v) (hr : Refined keeps v g g') :
    AllAccounted keeps g' := by
  have hl := hr.1.toLocal
  have hwf := h.valid.wf
  refine ⟨h.valid.of_local hv.2 hl, fun {c p} hc hcp => ?_⟩
  have hcold := (hl.isLive c).symm.trans hc
  have hcpold := (hl.parent c).symm.trans hcp
  have hp := hwf.versions.parent_live hcold hcpold
  -- the leaf is nobody's parent
  have hpv : p ≠ v := by
    rintro rfl
    have hmem := hwf.versions.mem_children hcold hcpold
    rw [hv.2] at hmem
    cases hmem
  have hpl := hl.layers_of_leaf hwf.versions hv.2 hp hpv
  have ho := observe_of_local h.valid hv hl hp hpv
  have ha := h.accounted hcold hcpold
  by_cases hcv : c = v
  · subst hcv
    refine ha.next hwf hp ho hpl ?_ hr.2
    have ht := hr.1.tracked hwf (lt_length_of_isLive hwf hv.1) (h.valid.grounded c hv.1)
    exact (View.Tracked.refl _ _).trans ht fun i hi => lt_of_canAccess hi
  · exact ha.of_layers hwf (hl.wf hwf) hp hc ho hpl
      (hl.layers_of_leaf hwf.versions hv.2 hcold hcv)

theorem registerPlaceholder (h : AllAccounted keeps g) (param : GenericParam) (u : Universe) :
    AllAccounted keeps (g.registerPlaceholder param u) := by
  refine ⟨h.valid.registerPlaceholder param u, fun {c p} hc hcp => ?_⟩
  have hp := h.valid.wf.versions.parent_live hc hcp
  exact (h.accounted hc hcp).of_layers h.valid.wf (h.valid.registerPlaceholder param u).wf hp hc
    rfl rfl rfl

/-- A new child has nothing to account for. -/
theorem branchFrom (h : AllAccounted keeps g) (hlive : g.versions.isLive parent = true) :
    AllAccounted keeps (g.branchFrom parent).2 := by
  have hwf := h.valid.wf
  have hlt := VersionTree.lt_length_of_isLive hlive
  have hvalid := h.valid.branchFrom hlive
  refine ⟨hvalid, fun {c p} hc hcp => ?_⟩
  have hcp' := (VersionTree.branchFrom_parent hlt c).symm.trans hcp
  by_cases hcn : c = g.versions.nodes.length
  · subst hcn
    rw [if_pos rfl, Option.some.injEq] at hcp'
    subst hcp'
    have hview := view_branchFrom hwf hlive
    have hpl := branchFrom_layers hwf hlive hlt
    have hpview : (g.branchFrom parent).2.view parent = g.view parent := by rw [view, view, hpl]
    refine ⟨?_, fun _ S hS => ?_⟩
    · rw [hview, hpview]
      exact .refl _ _
    · exact ⟨_, hS.of_view hvalid.wf (lt_length_of_isLive hvalid.wf hc) (by rw [hview, hpview])
        (by rw [hview, hpview]) (by rw [hview, hpview]), .of_resolve rfl⟩
  · rw [if_neg hcn] at hcp'
    have hcold : g.versions.isLive c = true := by
      simpa [hcn] using (VersionTree.branchFrom_isLive hlt c).symm.trans hc
    have hp := hwf.versions.parent_live hcold hcp'
    exact (h.accounted hcold hcp').of_layers hwf hvalid.wf hp hc
      (observe_branchFrom hwf hlive hp)
      (branchFrom_layers hwf hlive (VersionTree.lt_length_of_isLive hp))
      (branchFrom_layers hwf hlive (VersionTree.lt_length_of_isLive hcold))

/-- A parent takes over its child's account. -/
theorem collapsed (h : AllAccounted keeps g) (hc : g.CanCollapse child parent) :
    AllAccounted keeps (g.collapseInto child parent).2 := by
  have hwf := h.valid.wf
  have hcol := VersionedEGraph.collapsed hwf hc
  have hvalid := h.valid.collapsed hc hcol
  refine ⟨hvalid, fun {c p} hcl hcp => ?_⟩
  obtain ⟨hcold, hcc⟩ := (hcol.isLive c).mp hcl
  have hcp' := (hcol.parent_eq c).symm.trans hcp
  have hp := hwf.versions.parent_live hcold hcp'
  have hp' := hvalid.wf.versions.parent_live hcl hcp
  -- the parent of the collapse has no child left
  have hpp : p ≠ parent := by
    rintro rfl
    have hmem := hvalid.wf.versions.mem_children hcl hcp
    rw [hcol.children p hp', if_pos rfl] at hmem
    cases hmem
  have ho := observe_collapse_of_ne hwf hc hcol hp' hpp
  have hpl := hcol.layers p hp' hpp
  have ha := h.accounted hcold hcp'
  by_cases hcpar : c = parent
  · subst hcpar
    have hchild := h.accounted hc.1 hc.2.2.1
    have hview := hcol.view_parent hwf hc.2.2.1
    have hknown : {i | (g.collapseInto child c).2.versions.canAccess p i = true} =
        {i | g.versions.canAccess p i = true} := by
      ext i
      rw [Set.mem_ofPred_eq, Set.mem_ofPred_eq, canAccess_of_observe ho]
    have hpview : (g.collapseInto child c).2.view p = g.view p := by rw [view, view, hpl]
    refine ⟨?_, fun hk S hS => ?_⟩
    · rw [hknown, hpview, hview]
      exact ha.tracked.collapsed hchild.tracked fun i hi => canAccess_child hwf hcp' hi
    · obtain ⟨T, hT, he⟩ := refinesStore_of_layers hwf hp hpl.symm S hS
      obtain ⟨U, hU, he'⟩ := ha.equates hk T hT
      obtain ⟨V, hV, he''⟩ := hchild.equates hk U hU
      exact ⟨_, hV.collapseInto hc, ((he.trans he').trans he'').trans (.of_resolve rfl)⟩
  · exact ha.of_layers hwf hvalid.wf hp hcl ho hpl (hcol.layers c hcl hcpar)

theorem discarded (h : AllAccounted keeps g) (hlive : g.versions.isLive v = true)
    (hp : g.versions.parent v = some parent) : AllAccounted keeps (g.discard v) := by
  have hwf := h.valid.wf
  have hd := VersionedEGraph.discarded hwf hlive hp
  have hvalid := h.valid.discarded hd
  refine ⟨hvalid, fun {c p} hcl hcp => ?_⟩
  have hcold := ((hd.isLive c).mp hcl).1
  have hcp' := (hd.parent_eq c).symm.trans hcp
  have hpl := hvalid.wf.versions.parent_live hcl hcp
  exact (h.accounted hcold hcp').of_layers hwf hd.wf (hwf.versions.parent_live hcold hcp') hcl
    (observe_discard hwf hd hpl) (hd.layers p hpl) (hd.layers c hcl)

/-- The probe of a transaction, before it ends. -/
theorem probe (h : AllAccounted keeps g) (hlive : g.versions.isLive parent = true)
    {probe : VersionedEGraph}
    (hr : Refined keeps g.versions.nodes.length (g.branchFrom parent).2 probe) :
    AllAccounted keeps probe := by
  refine (h.branchFrom hlive).of_refined ⟨?_, probe_leaf hlive⟩ hr
  exact (VersionTree.branchFrom_isLive (VersionTree.lt_length_of_isLive hlive) _).trans (by simp)

theorem worked (h : AllAccounted keeps g) (hlive : g.versions.isLive parent = true)
    {effects : Option CommitEffects}
    (hleaf : effects.isSome = true → g.versions.children parent = [])
    (hw : Worked keeps g parent effects g') : AllAccounted keeps g' := by
  obtain ⟨probe, hr, ⟨rfl, rfl⟩ | ⟨rfl, rfl⟩⟩ := hw
  · exact (h.probe hlive hr).discarded (probe_isLive hlive hr.1.toLocal)
      (probe_parent hlive hr.1.toLocal)
  · exact (h.probe hlive hr).collapsed (probe_canCollapse hlive (hleaf rfl) hr.1.toLocal)

section Steps

variable [HashOrder] {bounds : Bound → Prop} {event : Event}

/-- One step keeps the accounts, whatever version it works on. -/
theorem step (h : AllAccounted (∀ b, bounds b → b.IsExact) g) (hs : Step bounds g event g') :
    AllAccounted (∀ b, bounds b → b.IsExact) g' := by
  cases hs with
  | alloc hv u domain =>
      exact h.of_refined hv ⟨.allocVarInDomain g _ hv.1 u domain, fun _ =>
        .allocVarInDomain hv.1 u domain⟩
  | findMut hv ty => exact h.of_refined hv ⟨.findMut g _ ty, fun _ => .findMut ty⟩
  | unifyInProbe hv hrun => exact h.of_refined hv (.unifyInProbe hrun)
  | rebuild hv hrun => exact h.of_refined hv (.rebuild hrun)
  | registerPlaceholder param u _ => exact h.registerPlaceholder param u
  | branchFrom hlive => exact h.branchFrom hlive
  | collapseInto hc => exact h.collapsed hc
  | discard hlive hp => exact h.discarded hlive hp
  | transaction hlive hleaf ht =>
      rcases ht.worked hlive with rfl | ⟨effects, hok, hw⟩
      · exact h
      · exact h.worked hlive (fun he => hleaf (hok.symm.trans he)) hw

/-- Every version of a reachable state accounts for its differences. -/
theorem reachable (h : Reachable bounds g) : AllAccounted (∀ b, bounds b → b.IsExact) g := by
  induction h with
  | new => exact .new
  | step _ hs ih => exact ih.step hs

end Steps

end AllAccounted

end VersionedEGraph

end Sage
