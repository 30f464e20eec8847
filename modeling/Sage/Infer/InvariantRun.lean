import Sage.Infer.Invariant
import Sage.Infer.Isolation

/-!
# Inference — invariants of a run

The runs whose types mention allocated variables only, as `get_variable` asserts.  What
unification keeps, and what goes with what a version records, holds of every live version along
such a run: versions are forked, collapsed and discarded as a whole, and transactions and
responses write by unifying.

* `ScopedStep`, `ScopedRun` — the steps; in these a placeholder is registered before any
  variable is resolved to a type that names it.
* `VersionInvariant` — a property of a version that such steps keep.
* `VersionInvariant.step` — one step.
-/

namespace Sage

open Loop

namespace VersionedEGraph

variable {g g' : VersionedEGraph} {v w parent child : Nat} {S : Store}

/-! ### Steps over types in scope -/

/-- No live version resolves a variable to a type that names the placeholder. -/
def Unnamed (g : VersionedEGraph) (param : GenericParam) : Prop :=
  ∀ w, g.versions.isLive w = true → ∀ ρ, g.Resolution w ρ → ∀ x,
    (ρ x).All (fun s => s.placeholder ≠ some param) fun _ => True

section Steps

variable [HashOrder]

/-- A transaction over allocated variables. -/
inductive ScopedTransaction (g : VersionedEGraph) (parent : Version) :
    Bool → VersionedEGraph → Prop
  | tryUnifyBatch {fuel : Nat} {equalities : List (Ty × Ty)}
      {r : Except UnifyError (Unit × CommitEffects)} {g' : VersionedEGraph}
      (hs : ∀ p ∈ equalities, g.Allocates p.1 ∧ g.Allocates p.2)
      (hrun : g.tryUnifyBatch fuel parent equalities = some (r, g')) :
      ScopedTransaction g parent r.isOk g'
  | tryUnifyRequired {fuel : Nat} {left right : Ty}
      {r : Except RequiredUnifyFailure CommitEffects} {g' : VersionedEGraph}
      (hl : g.Allocates left) (hr : g.Allocates right)
      (hrun : g.tryUnifyRequired fuel parent left right = some (r, g')) :
      ScopedTransaction g parent r.isOk g'
  | trySetBound {fuel : Nat} {variableTy : Ty} {bound : Bound}
      {r : Except UnifyError (Unit × CommitEffects)} {g' : VersionedEGraph} (hb : bound.IsExact)
      (hv : g.Allocates variableTy) (ht : ∀ t, bound.ty = some t → g.Allocates t)
      (hrun : g.trySetBound fuel parent variableTy bound = some (r, g')) :
      ScopedTransaction g parent r.isOk g'
  | installErrorRecovery {fuel : Nat} {variableTy errorTy : Ty}
      {r : Except UnifyError (Unit × CommitEffects)} {g' : VersionedEGraph}
      (hv : g.Allocates variableTy)
      (hrun : g.installErrorRecovery fuel parent variableTy errorTy = some (r, g')) :
      ScopedTransaction g parent r.isOk g'
  | applyQueryResponse {fuel : Nat} {query : GoalQueryData} {mapping : CanonicalMapping}
      {response : QueryResult} {r : Except ApplyResponseError AppliedResponse}
      {g' : VersionedEGraph} (hm : g.Registered query mapping)
      (hi : ∀ x, .existential x ∈ mapping.inputs → x < g.varCount)
      (hs : ∀ entry ∈ response.value.substitution, g.Allocates entry.value)
      (hrun : g.applyQueryResponse fuel parent query mapping response = some (r, g')) :
      ScopedTransaction g parent r.isOk g'

/-- A step over allocated variables and registered placeholders. -/
inductive ScopedStep (g : VersionedEGraph) : Event → VersionedEGraph → Prop
  | alloc {v : Version} (hv : g.IsMutable v) (u : Universe) (domain : InferDomain) :
      ScopedStep g (.mutated v) (g.allocVarInDomain v u domain).2
  | findMut {v : Version} (hv : g.IsMutable v) (ty : Ty) :
      ScopedStep g (.mutated v) (g.findMut v ty).2
  | unifyInProbe {v : Version} (hv : g.IsMutable v) {fuel : Nat} {left right : Ty}
      {r : Except UnifyError Unit} {g' : VersionedEGraph} (hl : g.Allocates left)
      (hr : g.Allocates right)
      (hrun : VersionedEGraph.unifyInProbe fuel v left right g = some (r, g')) :
      ScopedStep g (.mutated v) g'
  | rebuild {v : Version} (hv : g.IsMutable v) {fuel : Nat} {changed : List Ty}
      {g' : VersionedEGraph} (hrun : g.rebuild fuel v = some (changed, g')) :
      ScopedStep g (.mutated v) g'
  | registerPlaceholder (param : GenericParam) (u : Universe)
      (h : ∀ previous, g.placeholderUniverses.lookup param = some previous → previous = u)
      (hn : g.placeholderUniverse param = u ∨ g.Unnamed param) :
      ScopedStep g (.registered param) (g.registerPlaceholder param u)
  | branchFrom {parent : Version} (h : g.versions.isLive parent = true) :
      ScopedStep g (.branched parent) (g.branchFrom parent).2
  | collapseInto {child parent : Version} (h : g.CanCollapse child parent) :
      ScopedStep g (.collapsed child parent) (g.collapseInto child parent).2
  | discard {v parent : Version} (h : g.versions.isLive v = true)
      (hp : g.versions.parent v = some parent) : ScopedStep g (.discarded v) (g.discard v)
  | transaction {parent : Version} {ok : Bool} {g' : VersionedEGraph}
      (h : g.versions.isLive parent = true) (hleaf : ok = true → g.versions.children parent = [])
      (ht : ScopedTransaction g parent ok g') : ScopedStep g (.ended parent ok) g'

/-- The states any sequence of such steps leads to. -/
inductive ScopedRun : VersionedEGraph → Prop
  | new : ScopedRun .new
  | step {g g' : VersionedEGraph} {event : Event} (h : ScopedRun g)
      (hs : ScopedStep g event g') : ScopedRun g'

theorem ScopedTransaction.transaction {ok : Bool} (h : ScopedTransaction g parent ok g') :
    Transaction Bound.IsExact g parent ok g' := by
  cases h with
  | tryUnifyBatch _ hrun => exact .tryUnifyBatch hrun
  | tryUnifyRequired _ _ hrun => exact .tryUnifyRequired hrun
  | trySetBound hb _ _ hrun => exact .trySetBound hb hrun
  | installErrorRecovery _ hrun => exact .installErrorRecovery hrun
  | applyQueryResponse hm _ _ hrun => exact .applyQueryResponse hm hrun

theorem ScopedStep.step {event : Event} (h : ScopedStep g event g') :
    Step Bound.IsExact g event g' := by
  cases h with
  | alloc hv u domain => exact .alloc hv u domain
  | findMut hv ty => exact .findMut hv ty
  | unifyInProbe hv _ _ hrun => exact .unifyInProbe hv hrun
  | rebuild hv hrun => exact .rebuild hv hrun
  | registerPlaceholder param u h _ => exact .registerPlaceholder param u h
  | branchFrom h => exact .branchFrom h
  | collapseInto h => exact .collapseInto h
  | discard h hp => exact .discard h hp
  | transaction h hleaf ht => exact .transaction h hleaf ht.transaction

theorem ScopedRun.reachable (h : ScopedRun g) : Reachable Bound.IsExact g := by
  induction h with
  | new => exact .new
  | step _ hs ih => exact .step ih hs.step

end Steps

/-! ### Other versions -/

/-- The variables and the placeholders are still what they were when they were made. -/
structure Carries (g g' : VersionedEGraph) : Prop where
  varCount_le : g.varCount ≤ g'.varCount
  creationUniverse : ∀ x < g.varCount, (g'.versions.getVariable x).creationUniverse =
    (g.versions.getVariable x).creationUniverse
  initialDomain : ∀ x < g.varCount, (g'.versions.getVariable x).initialDomain =
    (g.versions.getVariable x).initialDomain
  placeholderUniverse : g'.placeholderUniverse = g.placeholderUniverse

theorem Carries.of_getVariable (hn : g.varCount ≤ g'.varCount)
    (hinfo : ∀ x < g.varCount, (g'.versions.getVariable x).creationUniverse =
        (g.versions.getVariable x).creationUniverse ∧
      (g'.versions.getVariable x).initialDomain = (g.versions.getVariable x).initialDomain)
    (hp : g'.placeholderUniverse = g.placeholderUniverse) : Carries g g' :=
  ⟨hn, fun x hx => (hinfo x hx).1, fun x hx => (hinfo x hx).2, hp⟩

theorem Confined.carries (h : Confined v g g') : Carries g g' := by
  refine .of_getVariable h.varCount_le (fun x hx => ?_) h.placeholderUniverse_eq
  obtain ⟨infos, hinfos, -⟩ := h.varInfos
  rw [VersionTree.getVariable, VersionTree.getVariable, hinfos, List.getElem?_append_left hx]
  exact ⟨rfl, rfl⟩

theorem Collapsed.carries (h : Collapsed g child parent g') : Carries g g' := by
  have hlen : g'.varCount = g.varCount := by
    have hget : ∀ i, g'.versions.varInfos[i]? = none ↔ g.versions.varInfos[i]? = none :=
      fun i => by rw [h.varInfos, Option.map_eq_none_iff]
    simp only [List.getElem?_eq_none_iff] at hget
    exact Nat.le_antisymm ((hget _).mpr (Nat.le_refl _)) ((hget _).mp (Nat.le_refl _))
  refine .of_getVariable (Nat.le_of_eq hlen.symm) (fun x _ => ?_) ?_
  · rw [VersionTree.getVariable, VersionTree.getVariable, h.varInfos]
    cases g.versions.varInfos[x]? with
    | none => exact ⟨rfl, rfl⟩
    | some info =>
        simp only [Option.map_some, Option.getD_some]
        split <;> exact ⟨rfl, rfl⟩
  · funext p
    rw [VersionedEGraph.placeholderUniverse, VersionedEGraph.placeholderUniverse, h.placeholders]

theorem Discarded.carries (h : Discarded g v parent g') : Carries g g' := by
  refine .of_getVariable (Nat.le_of_eq (congrArg List.length h.varInfos).symm) (fun x _ => ?_) ?_
  · rw [VersionTree.getVariable, VersionTree.getVariable, h.varInfos]
    exact ⟨rfl, rfl⟩
  · funext p
    rw [VersionedEGraph.placeholderUniverse, VersionedEGraph.placeholderUniverse, h.placeholders]

theorem branchFrom_carries (g : VersionedEGraph) (parent : Version) :
    Carries g (g.branchFrom parent).2 := ⟨Nat.le_refl _, fun _ _ => rfl, fun _ _ => rfl, rfl⟩

/-- Registering a placeholder where it already is changes nothing. -/
theorem registerPlaceholder_eq {param : GenericParam} {u : Universe}
    (hu : g.placeholderUniverse param = u) :
    (g.registerPlaceholder param u).placeholderUniverse = g.placeholderUniverse := by
  funext p
  simp only [placeholderUniverse, VersionedEGraph.registerPlaceholder]
  by_cases hp : p = param
  · subst hp
    rw [AList.lookup_insert, Option.getD_some, ← hu]
    rfl
  · rw [AList.lookup_insert_ne hp]

/-! ### Invariants of a version -/

/-- Version `w` of `g'` records of the variables of `g` what version `v` of `g` does. -/
structure Transfers (g : VersionedEGraph) (v : Version) (g' : VersionedEGraph) (w : Version) :
    Prop extends Carries g g' where
  domain : (g'.view w).domain = (g.view v).domain
  ceiling : ∀ x < g.varCount, g'.currentUniverse w x = g.currentUniverse v x

/-- A property of a version and its store that unification keeps, that goes with what the version
records, and that is kept when a variable gets the error type to recover with. -/
structure VersionInvariant (P : VersionedEGraph → Version → Store → Prop) : Prop where
  unify : ∀ v, UnifyInvariant v fun g S => P g v S
  transfer : ∀ {g g' v w S S'}, P g v S → Represents g' w S' → S'.resolve = S.resolve →
    Transfers g v g' w → P g' w S'
  recovery : ∀ {g v S x} {e : ErrorReported}, P g v S → S.Unresolved x → x < g.varCount →
    ∃ S', P ((g.setBoundIn v (.inferVar x) (.exactly (.error e))).union v (.inferVar x)
      (.error e)).2 v S'

/-- Every live version has the property. -/
def Throughout (P : VersionedEGraph → Version → Store → Prop) (g : VersionedEGraph) : Prop :=
  ∀ v, g.versions.isLive v = true → ∃ S, P g v S

namespace VersionInvariant

variable {P : VersionedEGraph → Version → Store → Prop} (hP : VersionInvariant P)
include hP

theorem represents (h : P g v S) : Represents g v S := (hP.unify v).represents h

/-- A version that reads the layers another one read. -/
theorem of_layers (h : P g v S) (hc : Carries g g') (hwf : g'.WF)
    (hlive : g'.versions.isLive w = true) (hl : g'.layers w = g.layers v) :
    ∃ S', P g' w S' := by
  have hview : g'.view w = g.view v := by rw [view, view, hl]
  have hrep := (hP.represents h).of_view hwf (lt_length_of_isLive hwf hlive) (by rw [hview])
    (by rw [hview]) (by rw [hview])
  refine ⟨_, hP.transfer h hrep rfl ⟨hc, by rw [hview], fun x hx => ?_⟩⟩
  rw [currentUniverse, currentUniverse, hl, hc.creationUniverse x hx]

/-- A new variable is unresolved in every version. -/
theorem allocVarInDomain (h : P g v S) (hv : g.versions.isLive v = true) (u : Universe)
    (domain : InferDomain) : ∃ S', P (g.allocVarInDomain v u domain).2 v S' := by
  have hS := hP.represents h
  have hl := Local.allocVarInDomain g v u domain hv
  have hview := Local.view_allocVarInDomain hS.wf hv u domain
  have hrep := hS.of_view (hl.wf hS.wf) (hl.length ▸ hS.lt) (by rw [hview]) (by rw [hview])
    (by rw [hview])
  refine ⟨_, hP.transfer h hrep rfl ⟨hl.carries, by rw [hview], fun x hx => ?_⟩⟩
  have hne : x ≠ g.versions.varInfos.length := Nat.ne_of_lt hx
  rw [currentUniverse_eq, currentUniverse_eq, hview, hl.carries.creationUniverse x hx]
  simp only [Function.update_of_ne hne]

/-- Registering a placeholder where it already is. -/
theorem registerPlaceholder {param : GenericParam} {u : Universe} (h : P g v S)
    (hu : g.placeholderUniverse param = u) : ∃ S', P (g.registerPlaceholder param u) v S' := by
  have hS := hP.represents h
  have hwf' : (g.registerPlaceholder param u).WF := ⟨hS.wf.versions, hS.wf.length⟩
  have hrep := hS.of_view hwf' hS.lt rfl rfl rfl
  exact ⟨_, hP.transfer h hrep rfl ⟨⟨Nat.le_refl _, fun _ _ => rfl, fun _ _ => rfl,
    registerPlaceholder_eq hu⟩, rfl, fun _ _ => rfl⟩⟩

/-- A new probe has what its parent has. -/
theorem probe (hg : g.Valid) (h : Throughout P g) (hlive : g.versions.isLive parent = true) :
    ∃ S, P (g.branchFrom parent).2 g.versions.nodes.length S := by
  obtain ⟨S, hS⟩ := h parent hlive
  have hrep := hP.represents hS
  have hview := view_branchFrom hg.wf hlive
  have hr := branchFrom_restrictions hg.wf hlive
  have hrep' := (hrep.of_view hg.wf hrep.lt rfl rfl rfl).branchFrom hlive rfl
  exact ⟨_, hP.transfer hS hrep' rfl ⟨branchFrom_carries g parent, by rw [hview],
    fun x _ => congrFun (congrArg Restrictions.ceiling hr) x⟩⟩

theorem of_local (hg : g.Valid) (h : Throughout P g) (hleaf : g.versions.children v = [])
    (hl : Local v g g') (hk : ∀ S, P g v S → ∃ S', P g' v S') : Throughout P g' := by
  intro w hw
  have hw' := (hl.isLive w).symm.trans hw
  obtain ⟨S, hS⟩ := h w hw'
  by_cases hwv : w = v
  · subst hwv
    exact hk S hS
  · exact hP.of_layers hS hl.carries (hl.wf hg.wf) hw
      (hl.layers_of_leaf hg.wf.versions hleaf hw' hwv)

theorem branchFrom (hg : g.Valid) (h : Throughout P g)
    (hlive : g.versions.isLive parent = true) : Throughout P (g.branchFrom parent).2 := by
  intro w hw
  have hp := VersionTree.lt_length_of_isLive hlive
  have hw' := (VersionTree.branchFrom_isLive hp w).symm.trans hw
  by_cases hwn : w = g.versions.nodes.length
  · subst hwn
    exact hP.probe hg h hlive
  · have hwl : g.versions.isLive w = true := by simpa [hwn] using hw'
    obtain ⟨S, hS⟩ := h w hwl
    exact hP.of_layers hS (branchFrom_carries g parent) (hg.wf.branchFrom hlive) hw
      (branchFrom_layers hg.wf hlive (VersionTree.lt_length_of_isLive hwl))

theorem collapsed (hg : g.Valid) (h : Throughout P g) (hc : g.CanCollapse child parent) :
    Throughout P (g.collapseInto child parent).2 := by
  intro w hw
  have hcol := VersionedEGraph.collapsed hg.wf hc
  by_cases hwp : w = parent
  · subst hwp
    obtain ⟨S, hS⟩ := h child hc.1
    have hview := hcol.view_parent hg.wf hc.2.2.1
    have hr := collapseInto_restrictions hg.wf hc
    exact ⟨_, hP.transfer hS ((hP.represents hS).collapseInto hc) rfl ⟨hcol.carries,
      by rw [hview], fun x _ => congrFun (congrArg Restrictions.ceiling hr) x⟩⟩
  · obtain ⟨S, hS⟩ := h w ((hcol.isLive w).mp hw).1
    exact hP.of_layers hS hcol.carries hcol.wf hw (hcol.layers w hw hwp)

theorem discarded (hg : g.Valid) (h : Throughout P g) (hlive : g.versions.isLive v = true)
    (hp : g.versions.parent v = some parent) : Throughout P (g.discard v) := by
  intro w hw
  have hd := VersionedEGraph.discarded hg.wf hlive hp
  obtain ⟨S, hS⟩ := h w ((hd.isLive w).mp hw).1
  exact hP.of_layers hS hd.carries hd.wf hw (hd.layers w hw)

end VersionInvariant

/-! ### The import of a response -/

/-- What the import of a response keeps: a live version with the property, and a mapping to
allocated variables. -/
structure Importing (P : VersionedEGraph → Version → Store → Prop) (v : Version) (U : GenericParam → Universe) (n : Nat)
    (acc : TypeMapping × VersionedEGraph) : Prop where
  live : acc.2.versions.isLive v = true
  placeholderUniverse : acc.2.placeholderUniverse = U
  varCount_le : n ≤ acc.2.varCount
  version : ∃ S, P acc.2 v S
  mapped : ∀ p t, acc.1 p = some t → acc.2.Allocates t

section Import

variable {P : VersionedEGraph → Version → Store → Prop} (hP : VersionInvariant P)
  {U : GenericParam → Universe} {n : Nat} {base : Universe}
  {acc acc' : TypeMapping × VersionedEGraph} {r : Except ApplyResponseError Unit}
include hP

theorem Importing.input (h : Importing P v U n acc) {input : CanonicalVarInfo × CallerCanonicalVar}
    (hU : ∀ param, input.2 = .rigid param → U param = base + input.1.relativeUniverse)
    (hi : ∀ x, input.2 = .existential x → x < n)
    (hrun : importInput base input acc = some (r, acc')) : Importing P v U n acc' := by
  have hmapped : ∀ {q : GenericParam} {u : Ty}, acc.2.Allocates u → ∀ p t,
      Function.update acc.1 q (some u) p = some t → acc.2.Allocates t := by
    intro q u hu p t ht
    by_cases hp : p = q
    · subst hp
      rw [Function.update_self, Option.some.injEq] at ht
      exact ht ▸ hu
    · rw [Function.update_of_ne hp] at ht
      exact h.mapped p t ht
  simp only [importInput] at hrun
  split at hrun
  · rename_i param hparam _
    split at hrun
    · simp only [Option.some.injEq, Prod.mk.injEq] at hrun
      exact hrun.2 ▸ h
    · rename_i u hu
      simp only [Option.some.injEq, Prod.mk.injEq] at hrun
      rw [← hrun.2]
      have hreg : acc.2.placeholderUniverse param = u := by
        rw [h.placeholderUniverse, hU param hparam]
        rw [Universe.checkedAdd] at hu
        split at hu
        · exact Option.some.inj hu
        · cases hu
      obtain ⟨S, hS⟩ := h.version
      refine ⟨h.live, ?_, h.varCount_le, hP.registerPlaceholder hS hreg, ?_⟩
      · exact (registerPlaceholder_eq hreg).trans h.placeholderUniverse
      · refine hmapped fun y hy => ?_
        obtain ⟨c, hc, -⟩ := (Ty.mem_vars_iff (t := .param param) trivial).mp hy
        exact absurd hc List.not_mem_nil
  · rename_i x hx _
    simp only [Option.some.injEq, Prod.mk.injEq] at hrun
    rw [← hrun.2]
    refine ⟨h.live, h.placeholderUniverse, h.varCount_le, h.version, hmapped fun y hy => ?_⟩
    rw [Ty.mem_vars_inferVar] at hy
    exact Nat.lt_of_lt_of_le (hy ▸ hi x hx) h.varCount_le
  · simp only [Option.some.injEq, Prod.mk.injEq] at hrun
    exact hrun.2 ▸ h

theorem Importing.binder (h : Importing P v U n acc) {info : ResponseVarInfo}
    (hrun : importBinder v base info acc = some (r, acc')) : Importing P v U n acc' := by
  simp only [importBinder] at hrun
  split at hrun
  · simp only [Option.some.injEq, Prod.mk.injEq] at hrun
    exact hrun.2 ▸ h
  · rename_i u _
    simp only [Option.some.injEq, Prod.mk.injEq] at hrun
    rw [← hrun.2]
    obtain ⟨S, hS⟩ := h.version
    have hl := Local.allocVarInDomain acc.2 v u info.domain h.live
    refine ⟨(hl.isLive v).trans h.live, hl.placeholderUniverse_eq.trans h.placeholderUniverse,
      Nat.le_trans h.varCount_le hl.varCount_le, hP.allocVarInDomain hS h.live u info.domain, ?_⟩
    intro p t ht
    by_cases hp : p = .alphaEquiv info.param
    · subst hp
      simp only [Function.update_self, Option.some.injEq] at ht
      intro y hy
      rw [← ht, Ty.mem_vars_inferVar] at hy
      have hcount : (acc.2.allocVarInDomain v u info.domain).2.varCount = acc.2.varCount + 1 :=
        List.length_append
      rw [hcount, hy]
      exact Nat.lt_succ_self _
    · simp only [Function.update_of_ne hp] at ht
      exact (h.mapped p t ht).mono hl.varCount_le

theorem Importing.entry {inputs : List (CanonicalVarInfo × CallerCanonicalVar)}
    {mapping : TypeMapping} {entry : SubstEntry} {fuel : Nat} (h : Importing P v U n (mapping, g))
    (hi : ∀ input ∈ inputs, ∀ x, input.2 = .existential x → x < n)
    (hs : ∀ y ∈ entry.value.vars, y < n)
    (hrun : importEntry fuel v inputs mapping entry g = some (r, g')) :
    Importing P v U n (mapping, g') := by
  obtain ⟨S, hS⟩ := h.version
  simp only [importEntry] at hrun
  split at hrun
  · rename_i info index hfind
    have hx := hi _ (List.mem_of_find?_eq_some hfind) index rfl
    have hleft : g.Allocates (.inferVar index) := fun y hy => by
      rw [Ty.mem_vars_inferVar] at hy
      exact Nat.lt_of_lt_of_le (hy ▸ hx) h.varCount_le
    have hright : g.Allocates (IrCopier.copyTy mapping (fun _ => none) entry.value) := by
      intro y hy
      rcases Ty.mem_vars_foldLeaves hy with ⟨z, hz, hy⟩ | ⟨p, hy⟩
      · rw [Ty.mem_vars_inferVar] at hy
        exact Nat.lt_of_lt_of_le (hy ▸ hs z hz) h.varCount_le
      · cases hp : mapping p with
        | some t =>
            rw [hp] at hy
            exact h.mapped p t hp y hy
        | none =>
            rw [hp, Option.getD_none] at hy
            obtain ⟨c, hc, -⟩ := (Ty.mem_vars_iff (t := .param _) trivial).mp hy
            exact absurd hc List.not_mem_nil
    have key : ∀ {r : Except UnifyError Unit} {g₁ : VersionedEGraph},
        VersionedEGraph.unifyInProbe fuel v (.inferVar index)
          (IrCopier.copyTy mapping (fun _ => none) entry.value) g = some (r, g₁) →
        Importing P v U n (mapping, g₁) := fun hp => by
      have hl := Local.unifyInProbe fuel hp
      have hallocated := (hP.unify v).allocated hS
      have hd := (hP.unify v).unifyInProbe fuel _ _ hS (hleft.covers hallocated)
        (hright.covers hallocated) hp
      exact ⟨(hl.isLive v).trans h.live, hl.placeholderUniverse_eq.trans h.placeholderUniverse,
        Nat.le_trans h.varCount_le hl.varCount_le, hd,
        fun p t ht => (h.mapped p t ht).mono hl.varCount_le⟩
    split at hrun
    · cases hrun
    · rename_i hp
      simp only [Option.some.injEq, Prod.mk.injEq] at hrun
      exact hrun.2 ▸ key hp
    · rename_i hp
      simp only [Option.some.injEq, Prod.mk.injEq] at hrun
      exact hrun.2 ▸ key hp
  · cases hrun

/-- The writes of an application. -/
theorem VersionInvariant.importResponse {fuel : Nat} {query : GoalQueryData} {mapping : CanonicalMapping}
    {response : QueryResult} {r : Except ApplyResponseError AppliedCertainty}
    (h : P g v S) (hlive : g.versions.isLive v = true) (hm : g.Registered query mapping)
    (hi : ∀ x, .existential x ∈ mapping.inputs → x < g.varCount)
    (hs : ∀ entry ∈ response.value.substitution, g.Allocates entry.value)
    (hrun : Sage.importResponse fuel v query mapping response g = some (r, g')) :
    ∃ S', P g' v S' := by
  have hinputs : ∀ input ∈ query.canonicalVars.zip mapping.inputs, ∀ x,
      input.2 = .existential x → x < g.varCount := fun input hmem x hx =>
    hi x (hx ▸ (List.of_mem_zip hmem).2)
  have hstart : Importing P v g.placeholderUniverse g.varCount (fun _ => none, g) :=
    ⟨hlive, rfl, Nat.le_refl _, ⟨S, h⟩, fun _ _ ht => by cases ht⟩
  let R (s t : TypeMapping × VersionedEGraph) : Prop :=
    Importing P v g.placeholderUniverse g.varCount s → Importing P v g.placeholderUniverse g.varCount t
  have htrans : ∀ {s t u}, R s t → R t u → R s u := fun h₁ h₂ hs => h₂ (h₁ hs)
  have himport : ∀ {r : Except ApplyResponseError Unit} {acc : TypeMapping × VersionedEGraph},
      andThen (forEach (importInput mapping.absoluteUniverseBase)
        (query.canonicalVars.zip mapping.inputs) (fun _ => none, g)) (fun _ =>
          forEach (importBinder v mapping.absoluteUniverseBase) response.boundVars) =
        some (r, acc) → Importing P v g.placeholderUniverse g.varCount acc := by
    intro r acc hrun
    refine andThen_invariant (R := R) htrans (fun _ _ hrun => ?_) (fun _ _ _ _ _ hrun => ?_) hrun hstart
    · exact forEach_invariant (R := R) (fun _ => id) htrans (fun input hmem _ _ _ hrun hs =>
        hs.input hP (hm input hmem) (hinputs input hmem) hrun) hrun
    · exact forEach_invariant (R := R) (fun _ => id) htrans
        (fun _ _ _ _ _ hrun hs => hs.binder hP hrun) hrun
  simp only [Sage.importResponse] at hrun
  split at hrun
  · cases hrun
  · rename_i hrun'
    simp only [Option.some.injEq, Prod.mk.injEq] at hrun
    exact hrun.2 ▸ (himport hrun').version
  · rename_i types g₁ hrun'
    have h₁ := himport hrun'
    suffices Importing P v g.placeholderUniverse g.varCount (types, g') from this.version
    refine andThen_invariant (R := fun s t => R (types, s) (types, t)) htrans
      (fun _ _ hrun => ?_) (fun _ _ _ _ _ hrun => ?_) hrun h₁
    · exact forEach_invariant (R := fun s t => R (types, s) (types, t)) (fun _ => id) htrans
        (fun entry hmem _ _ _ hrun hs' => hs'.entry hP hinputs (hs entry hmem) hrun) hrun
    · simp only [Option.some.injEq, Prod.mk.injEq] at hrun
      exact hrun.2 ▸ id

end Import

/-- A transaction whose probe kept the property. -/
def ScopedProbe (P : VersionedEGraph → Version → Store → Prop) (g : VersionedEGraph)
    (parent : Version) (ok : Bool) (g' : VersionedEGraph) : Prop :=
  ∃ probe, Local g.versions.nodes.length (g.branchFrom parent).2 probe ∧
    (∃ S, P probe g.versions.nodes.length S) ∧
    g' = if ok then (probe.collapseInto g.versions.nodes.length parent).2
      else probe.discard g.versions.nodes.length

section Probe

variable {P : VersionedEGraph → Version → Store → Prop} (hP : VersionInvariant P)
include hP

theorem VersionInvariant.probed (hg : g.Valid) (h : Throughout P g)
    (hlive : g.versions.isLive parent = true) {ok : Bool}
    (hleaf : ok = true → g.versions.children parent = []) (hp : ScopedProbe P g parent ok g') :
    Throughout P g' := by
  obtain ⟨probe, hl, hS, rfl⟩ := hp
  have hbranch := hg.branchFrom hlive
  have hvalid := hbranch.of_local (probe_leaf hlive) hl
  have hprobe := hP.of_local hbranch (hP.branchFrom hg h hlive) (probe_leaf hlive) hl fun _ _ => hS
  cases ok with
  | true => exact hP.collapsed hvalid hprobe (probe_canCollapse hlive (hleaf rfl) hl)
  | false => exact hP.discarded hvalid hprobe (probe_isLive hlive hl) (probe_parent hlive hl)

variable [HashOrder] {fuel : Nat}

theorem scopedProbe_tryProbe {α : Type}
    {operation : Version → VersionedEGraph → Outcome UnifyError VersionedEGraph α}
    (hop : ∀ r g', operation g.versions.nodes.length (g.branchFrom parent).2 = some (r, g') →
      Local g.versions.nodes.length (g.branchFrom parent).2 g' ∧
        ∃ S, P g' g.versions.nodes.length S)
    {r : Except UnifyError (α × CommitEffects)}
    (hrun : g.tryProbe fuel parent operation = some (r, g')) :
    ScopedProbe P g parent r.isOk g' := by
  simp only [tryProbe] at hrun
  split at hrun
  · cases hrun
  · rename_i probe hoperation
    obtain ⟨hl, S, hS⟩ := hop _ _ hoperation
    split at hrun
    · cases hrun
    · rename_i rebuilt hrebuild
      simp only [Option.some.injEq, Prod.mk.injEq] at hrun
      obtain ⟨rfl, rfl⟩ := hrun
      exact ⟨rebuilt, hl.trans (Local.rebuild _ hrebuild), ⟨S, (hP.unify _).rebuild hS hrebuild⟩, rfl⟩
  · rename_i probe hoperation
    obtain ⟨hl, hS⟩ := hop _ _ hoperation
    simp only [Option.some.injEq, Prod.mk.injEq] at hrun
    obtain ⟨rfl, rfl⟩ := hrun
    exact ⟨probe, hl, hS, rfl⟩

theorem VersionInvariant.transaction (hg : g.Valid) (h : Throughout P g)
    (hlive : g.versions.isLive parent = true) {ok : Bool}
    (ht : ScopedTransaction g parent ok g') : g' = g ∨ ScopedProbe P g parent ok g' := by
  obtain ⟨S, hS⟩ := hP.probe hg h hlive
  have hunify := hP.unify g.versions.nodes.length
  have hcovers : ∀ {t : Ty}, g.Allocates t → Covers (vars (g.branchFrom parent).2) S t :=
    fun ht => Allocates.covers (g := (g.branchFrom parent).2) ht (hunify.allocated hS)
  cases ht with
  | tryUnifyBatch hs hrun =>
      refine .inr (scopedProbe_tryProbe hP (fun r g' hop => ⟨?_, ?_⟩) hrun)
      · exact forEach_invariant (Local.refl _) Local.trans
          (fun _ _ _ _ _ hp => Local.unifyInProbe _ hp) hop
      · exact hunify.unifyPairs hS (fun p hp => ⟨hcovers (hs p hp).1, hcovers (hs p hp).2⟩) hop
  | @tryUnifyRequired fuel left right _ _ hl hr hrun =>
      have hkeeps : ∀ {r probe}, VersionedEGraph.unifyInProbe fuel g.versions.nodes.length left right
          (g.branchFrom parent).2 = some (r, probe) →
          ∃ S, P probe g.versions.nodes.length S := fun hp =>
        hunify.unifyInProbe fuel left right hS (hcovers hl) (hcovers hr) hp
      simp only [VersionedEGraph.tryUnifyRequired] at hrun
      split at hrun
      · cases hrun
      · rename_i probe hp
        split at hrun
        · cases hrun
        · rename_i rebuilt hrebuild
          simp only [Option.some.injEq, Prod.mk.injEq] at hrun
          obtain ⟨rfl, rfl⟩ := hrun
          obtain ⟨S', hS'⟩ := hkeeps hp
          exact .inr ⟨rebuilt, (Local.unifyInProbe _ hp).trans (Local.rebuild _ hrebuild),
            ⟨S', hunify.rebuild hS' hrebuild⟩, rfl⟩
      · rename_i probe hp
        simp only [Option.some.injEq, Prod.mk.injEq] at hrun
        obtain ⟨rfl, rfl⟩ := hrun
        exact .inr ⟨probe, Local.unifyInProbe _ hp, hkeeps hp, rfl⟩
  | trySetBound hb hv ht hrun =>
      refine .inr (scopedProbe_tryProbe hP (fun r g' hop => ?_) hrun)
      simp only at hop
      split at hop
      · rename_i x hx
        rw [hx] at hop
        refine ⟨local_setBound hop, hunify.setBound hS hb ?_ (fun t h => hcovers (ht t h)) hop⟩
        exact hx ▸ (hcovers hv).find (hP.represents hS)
      · simp only [Option.some.injEq, Prod.mk.injEq] at hop
        exact ⟨hop.2 ▸ Local.refl _ _, hop.2 ▸ ⟨S, hS⟩⟩
  | installErrorRecovery hv hrun =>
      refine .inr (scopedProbe_tryProbe hP (fun r g' hop => ?_) hrun)
      simp only at hop
      split at hop
      · rename_i x e hx he
        simp only [Option.some.injEq, Prod.mk.injEq] at hop
        obtain ⟨-, rfl⟩ := hop
        rw [hx, he]
        refine ⟨(Local.setBoundIn _ _ _ _).trans (Local.union _ _ _ _), ?_⟩
        have hxr := (hP.represents hS).find_eq_inferVar.mp hx
        have hu := Store.unresolved_of_eq hxr
        refine hP.recovery hS hu (Finset.mem_range.mp (hcovers hv x ?_))
        rw [hxr]
        exact Ty.mem_vars_inferVar.mpr rfl
      · simp only [Option.some.injEq, Prod.mk.injEq] at hop
        exact ⟨hop.2 ▸ Local.refl _ _, hop.2 ▸ ⟨S, hS⟩⟩
  | applyQueryResponse hm hi hs hrun =>
      have hbranch : (g.branchFrom parent).2.versions.isLive g.versions.nodes.length = true :=
        (VersionTree.branchFrom_isLive (VersionTree.lt_length_of_isLive hlive) _).trans (by simp)
      simp only [VersionedEGraph.applyQueryResponse] at hrun
      split at hrun
      · simp only [Option.some.injEq, Prod.mk.injEq] at hrun
        exact .inl hrun.2.symm
      split at hrun
      · simp only [Option.some.injEq, Prod.mk.injEq] at hrun
        exact .inl hrun.2.symm
      split at hrun
      · simp only [Option.some.injEq, Prod.mk.injEq] at hrun
        exact .inl hrun.2.symm
      split at hrun
      · cases hrun
      · rename_i probe hp
        simp only [Option.some.injEq, Prod.mk.injEq] at hrun
        obtain ⟨rfl, rfl⟩ := hrun
        exact .inr ⟨probe, (imports_importResponse hm hp hbranch rfl).1,
          hP.importResponse hS hbranch hm hi hs hp, rfl⟩
      · rename_i probe hp
        split at hrun
        · cases hrun
        · rename_i rebuilt hrebuild
          simp only [Option.some.injEq, Prod.mk.injEq] at hrun
          obtain ⟨rfl, rfl⟩ := hrun
          obtain ⟨S', hS'⟩ := hP.importResponse hS hbranch hm hi hs hp
          exact .inr ⟨rebuilt, (imports_importResponse hm hp hbranch rfl).1.trans
            (Local.rebuild _ hrebuild), ⟨S', hunify.rebuild hS' hrebuild⟩, rfl⟩

/-- One step over types in scope, but for a placeholder registered anew. -/
theorem VersionInvariant.step {event : Event} (hg : g.Valid) (h : Throughout P g)
    (hs : ScopedStep g event g')
    (hregister : ∀ {param u}, event = .registered param → g' = g.registerPlaceholder param u →
      Throughout P g') : Throughout P g' := by
  cases hs with
  | alloc hv u domain =>
      refine hP.of_local hg h hv.2 (Local.allocVarInDomain g _ u domain hv.1) fun S hS => ?_
      exact hP.allocVarInDomain hS hv.1 u domain
  | @findMut v hv ty =>
      exact hP.of_local hg h hv.2 (Local.findMut g v ty) fun S hS => ⟨S, (hP.unify v).findMut hS ty⟩
  | @unifyInProbe v hv _ _ _ _ _ hl hr hrun =>
      refine hP.of_local hg h hv.2 (Local.unifyInProbe _ hrun) fun S hS => ?_
      have ha := (hP.unify v).allocated hS
      exact (hP.unify v).unifyInProbe _ _ _ hS (hl.covers ha) (hr.covers ha) hrun
  | @rebuild v hv _ _ _ hrun =>
      exact hP.of_local hg h hv.2 (Local.rebuild _ hrun) fun S hS =>
        ⟨S, (hP.unify v).rebuild hS hrun⟩
  | registerPlaceholder param u _ hn => exact hregister rfl rfl
  | branchFrom hlive => exact hP.branchFrom hg h hlive
  | collapseInto hc => exact hP.collapsed hg h hc
  | discard hlive hp => exact hP.discarded hg h hlive hp
  | transaction hlive hleaf ht =>
      rcases hP.transaction hg h hlive ht with rfl | hp
      · exact h
      · exact hP.probed hg h hlive hleaf hp

end Probe

end VersionedEGraph

end Sage
