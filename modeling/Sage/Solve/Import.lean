import Sage.Infer.Probe
import Sage.Solve.Boundary

/-!
# Solve — the application of a response is a transaction

`applyQueryResponse` imports the inputs, the bound variables and the constraints of a response
into one child version.

* `local_importResponse` — the import touches the child alone, and keeps it representing a
  store.
* `probed_applyQueryResponse` — either nothing happens, or a probe is collapsed or discarded.
-/

namespace Sage

open Loop

namespace VersionedEGraph

variable {g g' : VersionedEGraph} {v child parent : Nat} {U : GenericParam → Universe}

/-- The rigid inputs of a query, in the universes they were canonicalized in. -/
def Registered (g : VersionedEGraph) (query : GoalQueryData) (mapping : CanonicalMapping) : Prop :=
  ∀ input ∈ query.canonicalVars.zip mapping.inputs, ∀ param, input.2 = .rigid param →
    g.placeholderUniverse param = mapping.absoluteUniverseBase + input.1.relativeUniverse

/-- A local change of `child`, which is live, under the placeholders `U`. -/
def Imports (child : Version) (U : GenericParam → Universe) (g g' : VersionedEGraph) : Prop :=
  g.versions.isLive child = true → g.placeholderUniverse = U →
    Local child g g' ∧ KeepsStore child g g'

namespace Imports

theorem refl (child : Version) (g : VersionedEGraph) : Imports child U g g :=
  fun _ _ => ⟨Local.refl child g, fun S h => ⟨S, h⟩⟩

theorem trans {g'' : VersionedEGraph} (h : Imports child U g g') (h' : Imports child U g' g'') :
    Imports child U g g'' := by
  intro hlive hU
  obtain ⟨hl, hk⟩ := h hlive hU
  obtain ⟨hl', hk'⟩ := h' ((hl.isLive child).trans hlive) (hl.placeholderUniverse_eq.trans hU)
  exact ⟨hl.trans hl', hk.trans hk'⟩

/-- Registering a placeholder where it already is. -/
theorem registerPlaceholder {param : GenericParam} {u : Universe} (hu : U param = u) :
    Imports child U g (g.registerPlaceholder param u) := by
  intro _ hU
  refine ⟨⟨⟨fun _ => rfl, fun _ => rfl, fun _ => rfl, fun _ _ => rfl, ⟨[], by simp [
    VersionedEGraph.registerPlaceholder], by simp⟩, ?_, rfl, fun h => ⟨h.versions, h.length⟩⟩,
    fun _ _ h => h⟩, keepsStore_registerPlaceholder param u⟩
  ext p
  simp only [placeholderUniverse, VersionedEGraph.registerPlaceholder]
  by_cases hp : p = param
  · subst hp
    rw [AList.lookup_insert, Option.getD_some, ← hu, ← hU]
    rfl
  · rw [AList.lookup_insert_ne hp]

end Imports

theorem imports_importInput {base : Universe} {input : CanonicalVarInfo × CallerCanonicalVar}
    (hinput : ∀ param, input.2 = .rigid param → U param = base + input.1.relativeUniverse)
    {acc acc' : TypeMapping × VersionedEGraph} {r : Except ApplyResponseError Unit}
    (hrun : importInput base input acc = some (r, acc')) : Imports child U acc.2 acc'.2 := by
  simp only [importInput] at hrun
  split at hrun
  · rename_i param hparam _
    split at hrun
    · simp only [Option.some.injEq, Prod.mk.injEq] at hrun
      exact hrun.2 ▸ Imports.refl child acc.2
    · rename_i u hu
      simp only [Option.some.injEq, Prod.mk.injEq] at hrun
      rw [← hrun.2]
      refine Imports.registerPlaceholder ((hinput param hparam).trans ?_)
      rw [Universe.checkedAdd] at hu
      split at hu
      · exact Option.some.inj hu
      · cases hu
  · simp only [Option.some.injEq, Prod.mk.injEq] at hrun
    exact hrun.2 ▸ Imports.refl child acc.2
  · simp only [Option.some.injEq, Prod.mk.injEq] at hrun
    exact hrun.2 ▸ Imports.refl child acc.2

theorem imports_importBinder {base : Universe} {info : ResponseVarInfo}
    {acc acc' : TypeMapping × VersionedEGraph} {r : Except ApplyResponseError Unit}
    (hrun : importBinder child base info acc = some (r, acc')) : Imports child U acc.2 acc'.2 := by
  simp only [importBinder] at hrun
  split at hrun
  · simp only [Option.some.injEq, Prod.mk.injEq] at hrun
    exact hrun.2 ▸ Imports.refl child acc.2
  · rename_i u _
    simp only [Option.some.injEq, Prod.mk.injEq] at hrun
    rw [← hrun.2]
    exact fun hlive _ => ⟨Local.allocVarInDomain acc.2 child u info.domain hlive,
      keepsStore_allocVarInDomain hlive u info.domain⟩

theorem imports_importEntry {fuel : Nat} {inputs : List (CanonicalVarInfo × CallerCanonicalVar)}
    {mapping : TypeMapping} {entry : SubstEntry} {r : Except ApplyResponseError Unit}
    (hrun : importEntry fuel child inputs mapping entry g = some (r, g')) :
    Imports child U g g' := by
  have key : ∀ {left right : Ty} {r : Except UnifyError Unit} {g₁ : VersionedEGraph},
      unifyInProbe fuel child left right g = some (r, g₁) → Imports child U g g₁ :=
    fun h _ _ => ⟨Local.unifyInProbe _ h, keepsStore_unifyInProbe h⟩
  simp only [importEntry] at hrun
  split at hrun
  · split at hrun
    · cases hrun
    · rename_i h
      simp only [Option.some.injEq, Prod.mk.injEq] at hrun
      exact hrun.2 ▸ key h
    · rename_i h
      simp only [Option.some.injEq, Prod.mk.injEq] at hrun
      exact hrun.2 ▸ key h
  · cases hrun

/-- The import of a response changes the child alone. -/
theorem imports_importResponse {fuel : Nat} {query : GoalQueryData} {mapping : CanonicalMapping}
    {response : QueryResult} {r : Except ApplyResponseError AppliedCertainty}
    (hm : ∀ input ∈ query.canonicalVars.zip mapping.inputs, ∀ param, input.2 = .rigid param →
      U param = mapping.absoluteUniverseBase + input.1.relativeUniverse)
    (hrun : importResponse fuel child query mapping response g = some (r, g')) :
    Imports child U g g' := by
  have himport : ∀ {r : Except ApplyResponseError Unit} {acc : TypeMapping × VersionedEGraph},
      andThen (forEach (importInput mapping.absoluteUniverseBase)
        (query.canonicalVars.zip mapping.inputs) (fun _ => none, g)) (fun _ =>
          forEach (importBinder child mapping.absoluteUniverseBase) response.boundVars) =
        some (r, acc) → Imports child U g acc.2 := by
    intro r acc h
    refine andThen_invariant (R := fun s t => Imports child U s.2 t.2) (s := (fun _ => none, g))
      Imports.trans (fun _ _ h => ?_) (fun _ _ _ _ _ h => ?_) h
    · exact forEach_invariant (R := fun s t => Imports child U s.2 t.2)
        (fun s => Imports.refl child s.2) Imports.trans
        (fun input hi _ _ _ h => imports_importInput (hm input hi) h) h
    · exact forEach_invariant (R := fun s t => Imports child U s.2 t.2)
        (fun s => Imports.refl child s.2) Imports.trans
        (fun _ _ _ _ _ h => imports_importBinder h) h
  simp only [importResponse] at hrun
  split at hrun
  · cases hrun
  · rename_i h
    simp only [Option.some.injEq, Prod.mk.injEq] at hrun
    exact hrun.2 ▸ himport h
  · rename_i types g₁ h
    refine (himport h).trans ?_
    refine andThen_invariant (R := Imports child U) Imports.trans (fun _ _ h => ?_)
      (fun _ _ _ _ _ h => ?_) hrun
    · exact forEach_invariant (R := Imports child U) (Imports.refl child) Imports.trans
        (fun _ _ _ _ _ h => imports_importEntry h) h
    · simp only [Option.some.injEq, Prod.mk.injEq] at h
      exact h.2 ▸ Imports.refl child _

/-- Applying a response changes nothing, or it is a transaction on a probe. -/
theorem probed_applyQueryResponse [HashOrder] {fuel : Nat} {query : GoalQueryData}
    {mapping : CanonicalMapping} {response : QueryResult}
    {r : Except ApplyResponseError AppliedResponse} {keeps : Prop}
    (hlive : g.versions.isLive parent = true) (hm : g.Registered query mapping)
    (hrun : g.applyQueryResponse fuel parent query mapping response = some (r, g')) :
    g' = g ∨ Probed keeps g parent r.isOk g' := by
  have hchild : (g.branchFrom parent).2.versions.isLive g.versions.nodes.length = true := by
    rw [show (g.branchFrom parent).2.versions = (g.versions.branchFrom parent).2 from rfl,
      VersionTree.branchFrom_isLive (VersionTree.lt_length_of_isLive hlive)]
    simp
  simp only [applyQueryResponse] at hrun
  split at hrun
  · simp only [Option.some.injEq, Prod.mk.injEq] at hrun
    exact .inl hrun.2.symm
  split at hrun
  · simp only [Option.some.injEq, Prod.mk.injEq] at hrun
    exact .inl hrun.2.symm
  split at hrun
  · simp only [Option.some.injEq, Prod.mk.injEq] at hrun
    exact .inl hrun.2.symm
  split at hrun
  · cases hrun
  · rename_i probe h
    simp only [Option.some.injEq, Prod.mk.injEq] at hrun
    obtain ⟨rfl, rfl⟩ := hrun
    obtain ⟨hl, hk⟩ := imports_importResponse hm h hchild rfl
    exact .inr ⟨probe, hl, fun _ => hk, rfl⟩
  · rename_i probe h
    obtain ⟨hl, hk⟩ := imports_importResponse hm h hchild rfl
    split at hrun
    · cases hrun
    · rename_i rebuilt hrebuild
      simp only [Option.some.injEq, Prod.mk.injEq] at hrun
      obtain ⟨rfl, rfl⟩ := hrun
      exact .inr ⟨rebuilt, hl.trans (Local.rebuild _ hrebuild),
        fun _ => hk.trans (keepsStore_rebuild hrebuild), rfl⟩

end VersionedEGraph

end Sage
