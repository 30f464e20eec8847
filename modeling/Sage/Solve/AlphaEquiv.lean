import Sage.Infer.TryUnify
import Sage.Solve.Naming
import Mathlib.Logic.Relator

/-!
# Solve — canonical queries are goals up to renaming

Two goals over two callers are alpha-equivalent when their resolved forms are alike under a
matching of the free parameters and the unresolved variables, and of the parameters that
corresponding binders bind.  `canonical.rs` gives them one query exactly when the matching also
keeps kinds, domains and the distances between universes.

* `Canonicalizer.foldTy_lockstep` — matched types are named alike.
* `Canonicalizer.lockstep_of_alphaEquiv`, `alphaEquiv_of_data_eq` — the two directions.
* `canonicalizeSolverGoal_eq_iff` — equal queries, exactly for equivalent callers.
-/

namespace Sage

open Grow

/-- Two types alike but for related variables and related parameters. -/
def Ty.Matched (V : InferVarIndex → InferVarIndex → Prop) (P : GenericParam → GenericParam → Prop) :
    Ty → Ty → Prop :=
  Ty.Folded (fun x u => ∃ y, u = .inferVar y ∧ V x y) (fun p u => ∃ q, u = .param q ∧ P p q)
    (Const.Rel P)

namespace Canonicalizer

/-! ### Matched types are folded alike -/

section Lockstep

variable {g₁ g₂ : VersionedEGraph} {v₁ v₂ : Version} {S₁ S₂ : Store}
  {R : Canonicalizer → Canonicalizer → Prop} {V : InferVarIndex → InferVarIndex → Prop}
  {P : GenericParam → GenericParam → Prop} {b₁ b₂ : Binders}
  (h₁ : VersionedEGraph.Represents g₁ v₁ S₁) (h₂ : VersionedEGraph.Represents g₂ v₂ S₂)
  (hvar : ∀ x y, V x y → Lockstep R (foldInferVar g₁ v₁ x) (foldInferVar g₂ v₂ y))
  (hparam : ∀ p q, P p q → Lockstep R (foldGenericParam g₁ b₁ p) (foldGenericParam g₂ b₂ q))
include hparam

theorem foldConst_lockstep {c d : Const} (h : c.Rel P d) :
    Lockstep R (foldConst g₁ b₁ c) (foldConst g₂ b₂ d) := by
  cases c <;> cases d <;> first | exact (hparam _ _ h).bind fun _ => .pure _ | cases h <;> exact .pure _

include h₁ h₂ hvar

theorem foldTy_lockstep (n : Nat) : ∀ t u : Ty,
    (t.subst S₁.resolve).Matched V P (u.subst S₂.resolve) →
      Lockstep R (foldTy g₁ v₁ n b₁ t) (foldTy g₂ v₂ n b₂ u) := by
  induction n with
  | zero => exact fun t u _ s s' _ a r _ _ hrun => nomatch hrun
  | succ n ih =>
      intro t u h
      have hfind₁ := h₁.subst_find t
      have hfind₂ := h₂.subst_find u
      rcases (g₁.find v₁ t).cases_leaf with ht | ⟨x, hx⟩ | ⟨p, hp⟩
      · rw [← hfind₁, Ty.Matched, Ty.folded_inner (ht.subst _)] at h
        have hu : (g₂.find v₂ u).Inner := by
          rcases (g₂.find v₂ u).cases_leaf with hu | ⟨y, hy⟩ | ⟨q, hq⟩
          · exact hu
          · rw [h₂.find_eq_inferVar.mp hy] at h
            exact h.inner.elim
          · rw [← hfind₂, hq] at h
            exact h.inner.elim
        rw [foldTy_inner ht, foldTy_inner hu]
        refine Lockstep.mapChildrenM ht ⟨hu, ?_, ?_⟩
        · have hs := h.skeleton
          rw [← hfind₂, Ty.decompose_subst ht.rigid, Ty.decompose_subst hu.rigid] at hs
          exact hs.imp fun c d => foldConst_lockstep hparam
        · have hc := h.children
          rw [← hfind₂, Ty.decompose_subst ht.rigid, Ty.decompose_subst hu.rigid,
            List.forall₂_map_left_iff, List.forall₂_map_right_iff] at hc
          exact hc.imp ih
      · rw [h₁.find_eq_inferVar.mp hx] at h
        obtain ⟨y, hy, hxy⟩ := Ty.folded_inferVar.mp h
        rw [foldTy_inferVar hx, foldTy_inferVar (h₂.find_eq_inferVar.mpr hy)]
        exact (hvar x y hxy).bind fun _ => .pure _
      · rw [← hfind₁, hp] at h
        obtain ⟨q, hq, hpq⟩ := Ty.folded_param.mp h
        have hq' : g₂.find v₂ u = .param q := by
          rcases (g₂.find v₂ u).cases_leaf with hu | ⟨y, hy⟩ | ⟨q', hq'⟩
          · have hinner := hu.subst S₂.resolve
            rw [hfind₂, hq] at hinner
            exact hinner.elim
          · rw [h₂.find_eq_inferVar.mp hy] at hq
            cases hq
          · rw [← hfind₂, hq', Ty.subst_param] at hq
            rw [hq', hq]
        rw [foldTy_param hp, foldTy_param hq']
        exact (hparam p q hpq).bind fun _ => .pure _

end Lockstep

end Canonicalizer

/-! ### Alpha-equivalence -/

/-- A goal over a caller's inference state, as the solver is asked for it. -/
structure Caller where
  egraph : VersionedEGraph
  version : Version
  currentUniverse : Universe
  assumptionsComplete : Bool
  assumptions : List Assumption
  goal : SolverGoal

/-- The canonical query of a caller's goal. -/
def Caller.query (A : Caller) (fuel : Nat) : Option (GoalQueryData × CanonicalMapping) :=
  A.egraph.canonicalizeSolverGoal fuel A.version A.currentUniverse A.assumptionsComplete
    A.assumptions A.goal

/-- A matching of the variables and the free parameters of two callers. -/
structure Matching where
  var : InferVarIndex → InferVarIndex → Prop
  param : GenericParam → GenericParam → Prop

/-- Corresponding parameters: bound by corresponding binders, or free and matched.  The pairs
bound around a place are listed from the innermost one. -/
def Corresponds (P : GenericParam → GenericParam → Prop) :
    List (GenericParam × GenericParam) → GenericParam → GenericParam → Prop
  | [], p, q => P p q
  | (x, y) :: b, p, q => p = x ∧ q = y ∨ p ≠ x ∧ q ≠ y ∧ Corresponds P b p q

def pairUp (b : List (GenericParam × GenericParam)) (gs gs' : List GenericParam) :
    List (GenericParam × GenericParam) := (gs.zip gs').reverse ++ b

/-- Corresponding binders bind as many parameters, of the same kinds. -/
def SameKinds (gs gs' : List GenericParam) : Prop :=
  List.Forall₂ (fun p q => q.kind = p.kind) gs gs'

section Alpha

variable (A B : Caller) (ρ σ : InferVarIndex → Ty) (m : Matching)

/-- The universes of matched entities, and the current ones. -/
inductive MatchedUniverses : Universe → Universe → Prop
  | current : MatchedUniverses A.currentUniverse B.currentUniverse
  | var {x y : InferVarIndex} (h : m.var x y) : MatchedUniverses
      (A.egraph.currentUniverse A.version x) (B.egraph.currentUniverse B.version y)
  | param {p q : GenericParam} (h : m.param p q) :
      MatchedUniverses (A.egraph.placeholderUniverse p) (B.egraph.placeholderUniverse q)

/-- The relation of the types of two resolved goals. -/
def AlphaTy (b : List (GenericParam × GenericParam)) (t u : Ty) : Prop :=
  (t.subst ρ).Matched m.var (Corresponds m.param b) (u.subst σ)

/-- The goals and the environments of two callers, resolved by `ρ` and `σ` and with nested
conjunctions spliced, are alike under a bijection that keeps roles, kinds and domains, and that
relates the universes as `W` says. -/
structure AlphaEquiv (W : (Universe → Universe → Prop) → Prop) : Prop where
  var : Relator.BiUnique m.var
  param : Relator.BiUnique m.param
  kind : ∀ p q, m.param p q → q.kind = p.kind
  domain : ∀ x y, m.var x y → (B.egraph.effectiveDomain B.version (.inferVar y)).getD .any =
    (A.egraph.effectiveDomain A.version (.inferVar x)).getD .any
  universes : W (MatchedUniverses A B m)
  assumptionsComplete : B.assumptionsComplete = A.assumptionsComplete
  assumptions : RelAssumptions pairUp (AlphaTy ρ σ m) (fun _ => SameKinds) []
    (Assumption.flatten (splicedAssumptions A.assumptions))
    (Assumption.flatten (splicedAssumptions B.assumptions))
  goal : A.goal.spliced.Rel pairUp (AlphaTy ρ σ m) (fun _ => SameKinds) [] B.goal.spliced

end Alpha

/-- The same distances between universes on both sides. -/
def SameDistances (R : Universe → Universe → Prop) : Prop :=
  ∃ d d' : Nat, ∀ u u', R u u' → u + d = u' + d'

/-- The same order of universes on both sides. -/
def SameOrder (R : Universe → Universe → Prop) : Prop :=
  ∀ u u' w w', R u u' → R w w' → (u ≤ w ↔ u' ≤ w')

namespace Canonicalizer

/-! ### Equivalent callers have one query -/

section Agree

variable {A B : Caller} {m : Matching} {W : Universe → Universe → Prop}

/-- Two inputs alike but for related universes, and for what they stand for. -/
structure SameInput (W : Universe → Universe → Prop) (i j : InputInfo) : Prop where
  param : j.param = i.param
  kind : j.kind = i.kind
  role : j.role = i.role
  domain : j.domain = i.domain
  universe_ : W i.absoluteUniverse j.absoluteUniverse

/-- Two states that have named matched entities alike. -/
structure Agree (m : Matching) (W : Universe → Universe → Prop) (c c' : Canonicalizer) : Prop where
  nextParam : c'.nextParam = c.nextParam
  free : ∀ p q, m.param p q → c'.freeParams q = c.freeParams p
  infer : ∀ x y, m.var x y → c'.inferVars y = c.inferVars x
  inputs : List.Forall₂ (SameInput W) c.inputs c'.inputs

theorem Agree.new : Agree m W .new .new := ⟨rfl, fun _ _ _ => rfl, fun _ _ _ => rfl, .nil⟩

/-- An update of matched entries keeps all matched entries equal. -/
theorem update_matched {α α' β : Type} [DecidableEq α] [DecidableEq α'] {M : α → α' → Prop}
    (hM : Relator.BiUnique M) {f : α → Option β} {f' : α' → Option β} {a : α} {a' : α'} {w : β}
    (h : M a a') (hf : ∀ x y, M x y → f' y = f x) (x : α) (y : α') (hxy : M x y) :
    Function.update f' a' (some w) y = Function.update f a (some w) x := by
  by_cases hx : x = a
  · subst hx
    obtain rfl := hM.2 hxy h
    rw [Function.update_self, Function.update_self]
  · have hy : y ≠ a' := fun e => hx (hM.1 hxy (e ▸ h))
    rw [Function.update_of_ne hx, Function.update_of_ne hy, hf x y hxy]

/-- How a place is renamed on both sides: alike where parameters are bound. -/
def RenamedAlike (m : Matching) (b : List (GenericParam × GenericParam)) (c c' : Binders) : Prop :=
  ∀ p q, Corresponds m.param b p q →
    (∃ n, c p = some n ∧ c' q = some n) ∨ c p = none ∧ c' q = none ∧ m.param p q

theorem RenamedAlike.cons {b : List (GenericParam × GenericParam)} {c c' : Binders}
    (h : RenamedAlike m b c c') (x y n : GenericParam) :
    RenamedAlike m ((x, y) :: b) (Function.update c x (some n)) (Function.update c' y (some n)) := by
  rintro p q (⟨rfl, rfl⟩ | ⟨hp, hq, hpq⟩)
  · exact .inl ⟨n, Function.update_self .., Function.update_self ..⟩
  · rw [Function.update_of_ne hp, Function.update_of_ne hq]
    exact h p q hpq

theorem pairUp_cons (b : List (GenericParam × GenericParam)) (x y : GenericParam)
    (gs gs' : List GenericParam) : pairUp b (x :: gs) (y :: gs') = pairUp ((x, y) :: b) gs gs' := by
  simp [pairUp]

theorem RenamedAlike.enter {b : List (GenericParam × GenericParam)} {c c' : Binders}
    {gs gs' ts : List GenericParam} (h : RenamedAlike m b c c') (hk : SameKinds gs gs')
    (hl : ts.length = gs.length) :
    RenamedAlike m (pairUp b gs gs') (c.enter gs ts) (c'.enter gs' ts) := by
  induction hk generalizing b c c' ts with
  | nil => exact h
  | @cons x y gs gs' _ _ ih =>
      cases ts with
      | nil => cases hl
      | cons n ts =>
          rw [pairUp_cons]
          exact ih (h.cons x y n) (Nat.succ.inj hl)

theorem targets_sameKinds {gs gs' : List GenericParam} (h : SameKinds gs gs') (n : Nat) :
    targets n gs' = targets n gs := by
  induction h generalizing n with
  | nil => rfl
  | cons hk _ ih => rw [targets, targets, hk, ih]

theorem rename_lockstep (fuel : Nat) {gs gs' : List GenericParam} (h : SameKinds gs gs') :
    Lockstep (Agree m W) (gs.mapM (walker A.egraph A.version fuel).rename)
      (gs'.mapM (walker B.egraph B.version fuel).rename) := by
  intro c c' hc ts s ts' s' hrun hrun'
  rw [rename_mapM] at hrun hrun'
  obtain ⟨rfl, rfl⟩ := Prod.mk.inj (Option.some.inj hrun)
  obtain ⟨rfl, rfl⟩ := Prod.mk.inj (Option.some.inj hrun')
  refine ⟨by rw [hc.nextParam, targets_sameKinds h], ?_, hc.free, hc.infer, hc.inputs⟩
  rw [hc.nextParam, h.length_eq]

section Leaves

variable {ρ σ : InferVarIndex → Ty} {U : (Universe → Universe → Prop) → Prop}
  (h : AlphaEquiv A B ρ σ m U)
include h

theorem foldInferVar_lockstep {x y : InferVarIndex} (hxy : m.var x y) :
    Lockstep (Agree m (MatchedUniverses A B m)) (foldInferVar A.egraph A.version x)
      (foldInferVar B.egraph B.version y) := by
  intro c c' hc a s a' s' hrun hrun'
  have hy := hc.infer x y hxy
  cases hx : c.inferVars x with
  | some n =>
      rw [foldInferVar_named _ _ hx] at hrun
      rw [foldInferVar_named _ _ (hy.trans hx)] at hrun'
      obtain ⟨rfl, rfl⟩ := Prod.mk.inj (Option.some.inj hrun)
      obtain ⟨rfl, rfl⟩ := Prod.mk.inj (Option.some.inj hrun')
      exact ⟨rfl, hc⟩
  | none =>
      rw [foldInferVar_new _ _ hx] at hrun
      rw [foldInferVar_new _ _ (hy.trans hx), hc.nextParam] at hrun'
      obtain ⟨rfl, rfl⟩ := Prod.mk.inj (Option.some.inj hrun)
      obtain ⟨rfl, rfl⟩ := Prod.mk.inj (Option.some.inj hrun')
      refine ⟨rfl, rfl, hc.free, update_matched h.var hxy hc.infer, ?_⟩
      exact List.rel_append hc.inputs (.cons ⟨rfl, rfl, rfl, h.domain x y hxy, .var hxy⟩ .nil)

theorem foldGenericParam_lockstep {b : List (GenericParam × GenericParam)} {c c' : Binders}
    (hb : RenamedAlike m b c c') {p q : GenericParam} (hpq : Corresponds m.param b p q) :
    Lockstep (Agree m (MatchedUniverses A B m)) (foldGenericParam A.egraph c p)
      (foldGenericParam B.egraph c' q) := by
  intro s s' hs a t a' t' hrun hrun'
  rcases hb p q hpq with ⟨n, hp, hq⟩ | ⟨hp, hq, hfree⟩
  · rw [foldGenericParam_bound _ hp] at hrun
    rw [foldGenericParam_bound _ hq] at hrun'
    obtain ⟨rfl, rfl⟩ := Prod.mk.inj (Option.some.inj hrun)
    obtain ⟨rfl, rfl⟩ := Prod.mk.inj (Option.some.inj hrun')
    exact ⟨rfl, hs⟩
  · have hq' := hs.free p q hfree
    have hkind := h.kind p q hfree
    cases hp' : s.freeParams p with
    | some n =>
        rw [foldGenericParam_named _ hp hp'] at hrun
        rw [foldGenericParam_named _ hq (hq'.trans hp')] at hrun'
        obtain ⟨rfl, rfl⟩ := Prod.mk.inj (Option.some.inj hrun)
        obtain ⟨rfl, rfl⟩ := Prod.mk.inj (Option.some.inj hrun')
        exact ⟨rfl, hs⟩
    | none =>
        rw [foldGenericParam_new _ hp hp'] at hrun
        rw [foldGenericParam_new _ hq (hq'.trans hp'), hs.nextParam, hkind] at hrun'
        obtain ⟨rfl, rfl⟩ := Prod.mk.inj (Option.some.inj hrun)
        obtain ⟨rfl, rfl⟩ := Prod.mk.inj (Option.some.inj hrun')
        refine ⟨rfl, rfl, update_matched h.param hfree hs.free, hs.infer, ?_⟩
        exact List.rel_append hs.inputs (.cons ⟨rfl, hkind, rfl, rfl, .param hfree⟩ .nil)

end Leaves

section Query

variable {S S' : Store} {U : (Universe → Universe → Prop) → Prop} (hA : VersionedEGraph.Represents A.egraph A.version S)
  (hB : VersionedEGraph.Represents B.egraph B.version S')
  (h : AlphaEquiv A B S.resolve S'.resolve m U)
include hA hB h

theorem ty_lockstep (fuel : Nat) (b : List (GenericParam × GenericParam)) (c c' : Binders)
    (hb : RenamedAlike m b c c') (t u : Ty) (htu : AlphaTy S.resolve S'.resolve m b t u) :
    Lockstep (Agree m (MatchedUniverses A B m)) ((walker A.egraph A.version fuel).ty c t)
      ((walker B.egraph B.version fuel).ty c' u) :=
  foldTy_lockstep hA hB (fun _ _ => foldInferVar_lockstep h)
    (fun _ _ => foldGenericParam_lockstep h hb) fuel t u htu

theorem foldSolverGoal_lockstep (fuel : Nat) : Lockstep (Agree m (MatchedUniverses A B m))
    (foldSolverGoal A.egraph A.version fuel A.goal.spliced)
    (foldSolverGoal B.egraph B.version fuel B.goal.spliced) := by
  have hgoal := h.goal
  have hempty : RenamedAlike m [] (fun _ => none) fun _ => none := fun p q hpq =>
    .inr ⟨rfl, rfl, hpq⟩
  revert hgoal
  cases A.goal.spliced <;> cases B.goal.spliced <;> intro hgoal <;> first | exact hgoal.elim | skip
  case prove.prove g g' =>
    exact (g.walk_lockstep (ty_lockstep hA hB h fuel) (fun _ _ _ => rename_lockstep fuel)
      (fun _ _ _ _ _ _ => RenamedAlike.enter) hempty g' hgoal).bind fun _ => .pure _
  case normalize.normalize a a' =>
    exact (AliasTy.mapM_lockstep (ty_lockstep hA hB h fuel [] _ _ hempty) hgoal).bind
      fun _ => .pure _

end Query

end Agree

section DataEq

variable {A B : Caller} {m : Matching} {W : Universe → Universe → Prop}

/-- The oldest universes of two lists have the distance of their members. -/
theorem base_add {c c' : Canonicalizer} {u u' : Universe} {d d' : Nat}
    (hu : u + d = u' + d') (h : List.Forall₂ (SameInput fun w w' => w + d = w' + d') c.inputs c'.inputs) :
    c.base u + d = c'.base u' + d' := by
  rw [base, base]
  revert h
  generalize c.inputs = is
  generalize c'.inputs = js
  intro h
  induction h generalizing u u' with
  | nil => exact hu
  | @cons i j is js hij _ ih =>
      refine ih ?_
      rw [← Nat.add_min_add_right, ← Nat.add_min_add_right, hu, hij.universe_]

theorem varInfo_eq {i j : InputInfo} {d d' b b' : Nat}
    (h : SameInput (fun w w' => w + d = w' + d') i j) (hb : b + d = b' + d') :
    (⟨i.param, i.kind, i.role, i.absoluteUniverse - b, i.domain⟩ : CanonicalVarInfo) =
      ⟨j.param, j.kind, j.role, j.absoluteUniverse - b', j.domain⟩ := by
  have hu := h.universe_
  rw [h.param, h.kind, h.role, h.domain, ← Nat.add_sub_add_right, hu, hb, Nat.add_sub_add_right]

/-- Equivalent callers ask the same query. -/
theorem query_eq_of_alphaEquiv {S S' : Store}
    (hA : VersionedEGraph.Represents A.egraph A.version S)
    (hB : VersionedEGraph.Represents B.egraph B.version S')
    (h : AlphaEquiv A B S.resolve S'.resolve m SameDistances) {fuel : Nat}
    {query query' : GoalQueryData × CanonicalMapping} (hq : A.query fuel = some query)
    (hq' : B.query fuel = some query') : query.1 = query'.1 := by
  obtain ⟨as, c₁, goal, c₂, has, hgoal, rfl⟩ := canonicalize_run hq
  obtain ⟨as', c₁', goal', c₂', has', hgoal', rfl⟩ := canonicalize_run hq'
  have hempty : RenamedAlike m [] (fun _ => none) fun _ => none := fun p q hpq =>
    .inr ⟨rfl, rfl, hpq⟩
  have hwalk := walkAssumptions_lockstep (ty_lockstep hA hB h fuel)
    (fun _ _ _ => rename_lockstep fuel) (fun _ _ _ _ _ _ => RenamedAlike.enter) hempty _ _
    h.assumptions
  obtain ⟨rfl, hagree⟩ := hwalk _ _ .new _ _ _ _ has has'
  obtain ⟨rfl, hagree'⟩ := foldSolverGoal_lockstep hA hB h fuel _ _ hagree _ _ _ _ hgoal hgoal'
  obtain ⟨d, d', hd⟩ := h.universes
  have hinputs : List.Forall₂ (SameInput fun w w' => w + d = w' + d') c₂.inputs c₂'.inputs :=
    hagree'.inputs.imp fun i j hij => ⟨hij.param, hij.kind, hij.role, hij.domain,
      hd _ _ hij.universe_⟩
  have hcurrent := hd _ _ MatchedUniverses.current
  have hbase := base_add hcurrent hinputs
  have hvars : c₂.inputs.map (fun i => (⟨i.param, i.kind, i.role,
      i.absoluteUniverse - c₂.base A.currentUniverse, i.domain⟩ : CanonicalVarInfo)) =
      c₂'.inputs.map fun i => ⟨i.param, i.kind, i.role,
        i.absoluteUniverse - c₂'.base B.currentUniverse, i.domain⟩ := by
    rw [← List.forall₂_eq_eq_eq, List.forall₂_map_left_iff, List.forall₂_map_right_iff]
    exact hinputs.imp fun i j hij => varInfo_eq hij hbase
  have huniverse : A.currentUniverse - c₂.base A.currentUniverse =
      B.currentUniverse - c₂'.base B.currentUniverse := by
    rw [← Nat.add_sub_add_right, hcurrent, hbase, Nat.add_sub_add_right]
  rw [queryOf, queryOf, hvars, huniverse, hagree'.nextParam, h.assumptionsComplete]

end DataEq

/-! ### Callers with one query are equivalent -/

section OfDataEq

variable {g g' : VersionedEGraph} {v v' : Version} {c c' : Canonicalizer}

theorem WF.input_unique (h : c.WF g v) {i j : InputInfo} (hi : i ∈ c.inputs) (hj : j ∈ c.inputs)
    (hp : i.param = j.param) : i = j := List.inj_on_of_nodup_map h.nodup hi hj hp

theorem base_le (c : Canonicalizer) (u : Universe) :
    c.base u ≤ u ∧ ∀ i ∈ c.inputs, c.base u ≤ i.absoluteUniverse := by
  rw [base]
  generalize c.inputs = is
  induction is generalizing u with
  | nil => exact ⟨le_refl u, fun _ hi => absurd hi List.not_mem_nil⟩
  | cons i is ih =>
      obtain ⟨hu, his⟩ := ih (min u i.absoluteUniverse)
      refine ⟨hu.trans (Nat.min_le_left ..), List.forall_mem_cons.mpr ⟨?_, his⟩⟩
      exact hu.trans (Nat.min_le_right ..)

theorem add_eq_add_of_sub_eq_sub {a b a' b' : Nat} (h : b ≤ a) (h' : b' ≤ a')
    (hsub : a - b = a' - b') : a + b' = a' + b := by omega

/-- The entities of two callers that have the same names. -/
def sameNames (c c' : Canonicalizer) : Matching where
  var x y := ∃ a, c.inferVars x = some a ∧ c'.inferVars y = some a
  param p q := ∃ a, c.freeParams p = some a ∧ c'.freeParams q = some a

/-- The inputs of two queries are alike, whatever they stand for. -/
def SameInputs (u u' : Universe) (c c' : Canonicalizer) : Prop :=
  List.Forall₂ (SameInput fun w w' => w - c.base u = w' - c'.base u') c.inputs c'.inputs

theorem sameInputs_of_map_eq {u u' : Universe}
    (h : c.inputs.map (fun i => (⟨i.param, i.kind, i.role, i.absoluteUniverse - c.base u,
      i.domain⟩ : CanonicalVarInfo)) =
      c'.inputs.map fun i => ⟨i.param, i.kind, i.role, i.absoluteUniverse - c'.base u', i.domain⟩) :
    SameInputs u u' c c' := by
  rw [← List.forall₂_eq_eq_eq, List.forall₂_map_left_iff, List.forall₂_map_right_iff] at h
  refine h.imp fun i j hij => ?_
  rw [CanonicalVarInfo.mk.injEq] at hij
  obtain ⟨hp, hk, hr, hu, hd⟩ := hij
  exact ⟨hp.symm, hk.symm, hr.symm, hd.symm, hu⟩

theorem SameInputs.exists_right {u u' : Universe} (h : SameInputs u u' c c') {i : InputInfo}
    (hi : i ∈ c.inputs) : ∃ j ∈ c'.inputs,
      SameInput (fun w w' => w - c.base u = w' - c'.base u') i j := by
  rw [SameInputs] at h
  revert h hi
  generalize c.inputs = is
  generalize c'.inputs = js
  intro h hi
  induction h with
  | nil => exact absurd hi List.not_mem_nil
  | cons hij _ ih =>
      rcases List.mem_cons.mp hi with rfl | hi
      · exact ⟨_, List.mem_cons_self, hij⟩
      · obtain ⟨j, hj, h⟩ := ih hi
        exact ⟨j, List.mem_cons_of_mem _ hj, h⟩

section Names

variable {u u' : Universe} (hc : c.WF g v) (hc' : c'.WF g' v') (h : SameInputs u u' c c')
include hc hc' h

omit hc in
theorem sameInput_of_name {i j : InputInfo} (hi : i ∈ c.inputs) (hj : j ∈ c'.inputs)
    (hp : j.param = i.param) : SameInput (fun w w' => w - c.base u = w' - c'.base u') i j := by
  obtain ⟨k, hk, hik⟩ := h.exists_right hi
  rwa [hc'.input_unique hj hk (hp.trans hik.param.symm)]

/-- A name stands for a variable on both sides, or for a parameter. -/
theorem not_var_param {x : InferVarIndex} {q : GenericParam} {a : AlphaEquivParam}
    (hx : c.inferVars x = some a) (hq : c'.freeParams q = some a) : False := by
  have hrole := (sameInput_of_name hc' h ((hc.existential x a).mp hx)
    ((hc'.rigid q a).mp hq) rfl).role
  cases hrole

theorem not_param_var {p : GenericParam} {y : InferVarIndex} {a : AlphaEquivParam}
    (hp : c.freeParams p = some a) (hy : c'.inferVars y = some a) : False := by
  have hrole := (sameInput_of_name hc' h ((hc.rigid p a).mp hp)
    ((hc'.existential y a).mp hy) rfl).role
  cases hrole

omit hc' h in
theorem WF.inferVars_injective {x y : InferVarIndex} {a : AlphaEquivParam}
    (hx : c.inferVars x = some a) (hy : c.inferVars y = some a) : x = y := by
  have heq := hc.input_unique ((hc.existential x a).mp hx) ((hc.existential y a).mp hy) rfl
  simpa [existentialInput] using congrArg InputInfo.caller heq

omit hc' h in
theorem WF.freeParams_injective {p q : GenericParam} {a : AlphaEquivParam}
    (hp : c.freeParams p = some a) (hq : c.freeParams q = some a) : p = q := by
  have heq := hc.input_unique ((hc.rigid p a).mp hp) ((hc.rigid q a).mp hq) rfl
  simpa [rigidInput] using congrArg InputInfo.caller heq

end Names

/-! Corresponding scopes -/

/-- Scopes of two goals over one query. -/
structure BoundAlike (g : VersionedEGraph) (v : Version) (g' : VersionedEGraph) (v' : Version)
    (c c' : Canonicalizer) (b b' : Scope) (e : List (GenericParam × GenericParam)) : Prop where
  left : Fits g v b c
  right : Fits g' v' b' c'
  names : b'.names = b.names
  corresponds : ∀ p q n, c.lookup b.binders p = some n → c'.lookup b'.binders q = some n →
    Corresponds (sameNames c c').param e p q

theorem Private.not_free {q n : GenericParam} {a : AlphaEquivParam} (hc : c.WF g v)
    (hn : c.Private n) (ha : c.freeParams q = some a) : n ≠ .alphaEquiv a := by
  rintro rfl
  obtain ⟨a', ha', -, hnot⟩ := hn
  cases ha'
  exact hnot (List.mem_map.mpr ⟨_, (hc.rigid q a).mp ha, rfl⟩)

/-- A new name is nothing's but the parameter's that it is given to. -/
theorem lookup_ne {b : Binders} {N : List GenericParam} {q n : GenericParam} (hc : c.WF g v)
    (hb : ∀ p n, b p = some n → n ∈ N) (hN : n ∉ N) (hn : c.Private n) :
    c.lookup b q ≠ some n := by
  intro hq
  rw [lookup, Option.or_eq_some_iff] at hq
  rcases hq with hq | ⟨-, hq⟩
  · exact hN (hb q n hq)
  · obtain ⟨a, ha, rfl⟩ := Option.map_eq_some_iff.mp hq
    exact hn.not_free hc ha rfl

theorem lookup_update_of_ne {b : Binders} {p x : GenericParam} {n : Option GenericParam}
    (h : p ≠ x) : c.lookup (Function.update b x n) p = c.lookup b p := by
  rw [lookup, lookup, Function.update_of_ne h]

theorem lookup_update_self {b : Binders} {x n : GenericParam} :
    c.lookup (Function.update b x (some n)) x = some n := by
  rw [lookup, Function.update_self, Option.some_or]

section Enter

variable (hc : c.WF g v) (hc' : c'.WF g' v')
include hc hc'

theorem corresponds_enter {P : GenericParam → GenericParam → Prop}
    {gs gs' ds N : List GenericParam} {b b' : Binders} {e : List (GenericParam × GenericParam)}
    (hl : gs.length = ds.length) (hl' : gs'.length = ds.length) (hnd : ds.Nodup)
    (hN : ∀ d ∈ ds, d ∉ N) (hp : ∀ d ∈ ds, c.Private d) (hp' : ∀ d ∈ ds, c'.Private d)
    (hb : ∀ p n, b p = some n → n ∈ N) (hb' : ∀ q n, b' q = some n → n ∈ N)
    (h : ∀ p q n, c.lookup b p = some n → c'.lookup b' q = some n → Corresponds P e p q) :
    ∀ p q n, c.lookup (b.enter gs ds) p = some n → c'.lookup (b'.enter gs' ds) q = some n →
      Corresponds P (pairUp e gs gs') p q := by
  induction ds generalizing gs gs' N b b' e with
  | nil =>
      obtain rfl := List.length_eq_zero_iff.mp hl
      obtain rfl := List.length_eq_zero_iff.mp hl'
      exact h
  | cons d ds ih =>
      obtain ⟨x, gs, rfl⟩ := List.exists_cons_of_length_eq_add_one hl
      obtain ⟨y, gs', rfl⟩ := List.exists_cons_of_length_eq_add_one hl'
      rw [pairUp_cons]
      have hmem : ∀ {f : Binders} {z : GenericParam}, (∀ p n, f p = some n → n ∈ N) →
          ∀ p n, Function.update f z (some d) p = some n → n ∈ d :: N := by
        intro f z hf p n hn
        by_cases hpz : p = z
        · subst hpz
          rw [Function.update_self] at hn
          exact Option.some.inj hn ▸ List.mem_cons_self
        · rw [Function.update_of_ne hpz] at hn
          exact List.mem_cons_of_mem d (hf p n hn)
      have hdN := hN d List.mem_cons_self
      have hNd : ∀ k ∈ ds, k ∉ d :: N := by
        intro k hk hkN
        rcases List.mem_cons.mp hkN with rfl | hkN
        · exact (List.nodup_cons.mp hnd).1 hk
        · exact hN k (List.mem_cons_of_mem d hk) hkN
      refine ih (Nat.succ.inj hl) (Nat.succ.inj hl') (List.nodup_cons.mp hnd).2 hNd
        (fun k hk => hp k (List.mem_cons_of_mem d hk))
        (fun k hk => hp' k (List.mem_cons_of_mem d hk)) (hmem hb) (hmem hb') fun p q n hpn hqn => ?_
      -- the new name is given to `x` on one side and to `y` on the other
      by_cases hx : p = x
      · subst hx
        rw [lookup_update_self] at hpn
        obtain rfl := Option.some.inj hpn
        by_cases hy : q = y
        · exact .inl ⟨rfl, hy⟩
        · rw [lookup_update_of_ne hy] at hqn
          exact absurd hqn (lookup_ne hc' hb' hdN (hp' d List.mem_cons_self))
      · rw [lookup_update_of_ne hx] at hpn
        by_cases hy : q = y
        · subst hy
          rw [lookup_update_self] at hqn
          obtain rfl := Option.some.inj hqn
          exact absurd hpn (lookup_ne hc hb hdN (hp d List.mem_cons_self))
        · rw [lookup_update_of_ne hy] at hqn
          exact .inr ⟨hx, hy, h p q n hpn hqn⟩

end Enter

theorem Fits.enter {b : Scope} {gs ds : List GenericParam} (h : Fits g v b c)
    (hb : c.Binds b gs ds) : Fits g v (b.enter gs ds) c where
  wf := h.wf
  range p q hq := by
    rcases enter_eq_some hq with hq | hq
    · exact List.mem_append_right _ (h.range p q hq)
    · exact List.mem_append_left _ hq
  private_ q hq := by
    rcases List.mem_append.mp hq with hq | hq
    · exact hb.private_ q hq
    · exact h.private_ q hq

theorem BoundAlike.enter {b b' : Scope} {e : List (GenericParam × GenericParam)}
    (h : BoundAlike g v g' v' c c' b b' e) {gs gs' ds : List GenericParam}
    (hb : c.Binds b gs ds) (hb' : c'.Binds b' gs' ds) : SameKinds gs gs' ∧
      BoundAlike g v g' v' c c' (b.enter gs ds) (b'.enter gs' ds) (pairUp e gs gs') := by
  refine ⟨forall₂_join (fun _ _ _ hp hq => hq.symm.trans hp) hb.kinds hb'.kinds, h.left.enter hb,
    h.right.enter hb', by rw [Scope.enter, Scope.enter, h.names], ?_⟩
  exact corresponds_enter h.left.wf h.right.wf hb.kinds.length_eq hb'.kinds.length_eq hb.nodup
    hb.fresh hb.private_ hb'.private_ h.left.range (h.names ▸ h.right.range) h.corresponds

theorem Private.not_var {x : InferVarIndex} {n : GenericParam} {a : AlphaEquivParam}
    (hc : c.WF g v) (hn : c.Private n) (ha : c.inferVars x = some a) : n ≠ .alphaEquiv a := by
  rintro rfl
  obtain ⟨a', ha', -, hnot⟩ := hn
  cases ha'
  exact hnot (List.mem_map.mpr ⟨_, (hc.existential x a).mp ha, rfl⟩)

theorem Const.Rel.join {P P₁ P₂ : GenericParam → GenericParam → Prop}
    (h : ∀ p q n, P₁ p n → P₂ q n → P p q) {k l d : Const} (hk : k.Rel P₁ d) (hl : l.Rel P₂ d) :
    k.Rel P l := by
  cases d <;> cases k <;> cases l <;>
    simp_all [Const.Rel]
  exact h _ _ _ hk hl

theorem Skeleton.Rel.join {K K₁ K₂ : Const → Const → Prop}
    (h : ∀ k l d, K₁ k d → K₂ l d → K k l) {s r d : Skeleton} (hs : s.Rel K₁ d) (hr : r.Rel K₂ d) :
    s.Rel K r := by
  rcases Skeleton.rel_iff.mp hs with ⟨k, m, rfl, rfl, hk⟩ | ⟨hns, rfl⟩
  · rcases Skeleton.rel_iff.mp hr with ⟨l, m', rfl, he, hl⟩ | ⟨hnr, rfl⟩
    · cases he
      exact h k l m hk hl
    · exact absurd rfl (hnr m)
  · rcases Skeleton.rel_iff.mp hr with ⟨l, m', rfl, rfl, hl⟩ | ⟨hnr, rfl⟩
    · exact absurd rfl (hns m')
    · exact Skeleton.rel_iff.mpr (.inr ⟨hns, rfl⟩)

section Matched

variable {b b' : Scope} {e : List (GenericParam × GenericParam)} {u u' : Universe}
  (hJ : BoundAlike g v g' v' c c' b b' e) (h : SameInputs u u' c c')
include hJ h

/-- Types with one canonical form are matched. -/
theorem Named.matched {t w d : Ty} (ht : c.Named b.binders t d) (hw : c'.Named b'.binders w d) :
    t.Matched (sameNames c c').var (Corresponds (sameNames c c').param e) w := by
  have hc := hJ.left.wf
  have hc' := hJ.right.wf
  -- no name of a binder is an input's
  have hbound : ∀ {q : GenericParam} {a : AlphaEquivParam},
      c'.lookup b'.binders q = some (.alphaEquiv a) →
      c.Private (.alphaEquiv a) ∧ c'.Private (.alphaEquiv a) ∨ c'.freeParams q = some a := by
    intro q a hq
    rw [lookup, Option.or_eq_some_iff] at hq
    rcases hq with hq | ⟨-, hq⟩
    · have hname := hJ.right.range q _ hq
      exact .inl ⟨hJ.left.private_ _ (hJ.names ▸ hname), hJ.right.private_ _ hname⟩
    · obtain ⟨a', ha, he⟩ := Option.map_eq_some_iff.mp hq
      cases he
      exact .inr ha
  have hbound' : ∀ {p : GenericParam} {a : AlphaEquivParam},
      c.lookup b.binders p = some (.alphaEquiv a) →
      c'.Private (.alphaEquiv a) ∨ c.freeParams p = some a := by
    intro p a hp
    rw [lookup, Option.or_eq_some_iff] at hp
    rcases hp with hp | ⟨-, hp⟩
    · exact .inl (hJ.right.private_ _ (hJ.names ▸ hJ.left.range p _ hp))
    · obtain ⟨a', ha, he⟩ := Option.map_eq_some_iff.mp hp
      cases he
      exact .inr ha
  induction t using Ty.induction generalizing w d with
  | step t ih =>
      rcases t.cases_leaf with hti | ⟨x, rfl⟩ | ⟨p, rfl⟩
      · have ht := (Ty.folded_inner hti).mp ht
        have hwi : w.Inner := by
          rcases w.cases_leaf with hwi | ⟨y, rfl⟩ | ⟨q, rfl⟩
          · exact hwi
          · obtain ⟨a, -, rfl⟩ := Ty.folded_inferVar.mp hw
            exact ht.inner.elim
          · obtain ⟨n, -, rfl⟩ := Ty.folded_param.mp hw
            exact ht.inner.elim
        have hw := (Ty.folded_inner hwi).mp hw
        refine (Ty.folded_inner hti).mpr ⟨hwi, ?_, ?_⟩
        · have hconst : ∀ k l d, Const.Rel (fun p q => c.lookup b.binders p = some q) k d →
              Const.Rel (fun p q => c'.lookup b'.binders p = some q) l d →
                Const.Rel (Corresponds (sameNames c c').param e) k l := fun _ _ _ =>
            Const.Rel.join hJ.corresponds
          exact Skeleton.Rel.join hconst ht.skeleton hw.skeleton
        · have hts := ht.children
          have hws := hw.children
          revert ih hts hws
          generalize (decompose t).children = ts
          generalize (decompose w).children = ws
          generalize (decompose d).children = ds
          intro ih hts hws
          induction hts generalizing ws with
          | nil =>
              cases hws
              exact .nil
          | @cons t d ts ds htd _ ihs =>
              cases hws with
              | cons hwd hws =>
                  exact .cons (ih t List.mem_cons_self htd hwd)
                    (ihs _ (fun k hk => ih k (List.mem_cons_of_mem t hk)) hws)
      · obtain ⟨a, ha, rfl⟩ := Ty.folded_inferVar.mp ht
        refine .var ?_
        rcases w.cases_leaf with hwi | ⟨y, rfl⟩ | ⟨q, rfl⟩
        · exact ((Ty.folded_inner hwi).mp hw).inner.elim
        · obtain ⟨a', ha', he⟩ := Ty.folded_inferVar.mp hw
          cases he
          exact ⟨y, rfl, a, ha, ha'⟩
        · obtain ⟨n, hn, he⟩ := Ty.folded_param.mp hw
          cases he
          rcases hbound hn with ⟨hp, -⟩ | hq
          · exact absurd rfl (hp.not_var hc ha)
          · exact (not_var_param hc hc' h ha hq).elim
      · obtain ⟨n, hn, rfl⟩ := Ty.folded_param.mp ht
        refine .param ?_
        rcases w.cases_leaf with hwi | ⟨y, rfl⟩ | ⟨q, rfl⟩
        · exact ((Ty.folded_inner hwi).mp hw).inner.elim
        · obtain ⟨a, ha, he⟩ := Ty.folded_inferVar.mp hw
          cases he
          rcases hbound' hn with hp | hp
          · exact absurd rfl (hp.not_var hc' ha)
          · exact (not_param_var hc hc' h hp ha).elim
        · obtain ⟨n', hn', he⟩ := Ty.folded_param.mp hw
          cases he
          exact ⟨q, rfl, hJ.corresponds p q n hn hn'⟩

end Matched

/-- Callers with one query are equivalent. -/
theorem alphaEquiv_of_query_eq {A B : Caller} {S S' : Store}
    (hA : VersionedEGraph.Represents A.egraph A.version S)
    (hB : VersionedEGraph.Represents B.egraph B.version S') {fuel fuel' : Nat}
    {query query' : GoalQueryData × CanonicalMapping} (hq : A.query fuel = some query)
    (hq' : B.query fuel' = some query') (heq : query.1 = query'.1) :
    ∃ m, AlphaEquiv A B S.resolve S'.resolve m SameDistances := by
  obtain ⟨as, _, goal, c, hrun, hfold, rfl⟩ := canonicalize_run hq
  obtain ⟨as', _, goal', c', hrun', hfold', rfl⟩ := canonicalize_run hq'
  have hcan := canonicalized hA A.currentUniverse A.assumptionsComplete hrun hfold
  have hcan' := canonicalized hB B.currentUniverse B.assumptionsComplete hrun' hfold'
  simp only [queryOf, GoalQueryData.mk.injEq] at heq
  obtain ⟨hu, hvars, -, hcomplete, has, hgoal⟩ := heq
  have hsame := sameInputs_of_map_eq hvars
  have hc := hcan.wf
  have hc' := hcan'.wf
  have hempty : BoundAlike A.egraph A.version B.egraph B.version c c' .empty .empty [] := by
    refine ⟨.empty hc, .empty hc', rfl, fun p q n hp hq => ?_⟩
    obtain ⟨a, ha, rfl⟩ := Option.map_eq_some_iff.mp hp
    obtain ⟨a', ha', he⟩ := Option.map_eq_some_iff.mp hq
    cases he
    exact ⟨a, ha, ha'⟩
  have hT : ∀ b b' e, BoundAlike A.egraph A.version B.egraph B.version c c' b b' e → ∀ t w d,
      c.NamedIn S b t d → c'.NamedIn S' b' w d →
        AlphaTy S.resolve S'.resolve (sameNames c c') e t w :=
    fun b b' e hJ t w d => Named.matched hJ hsame
  have hE : ∀ b b' e, BoundAlike A.egraph A.version B.egraph B.version c c' b b' e →
      ∀ gs gs' ds, c.Binds b gs ds → c'.Binds b' gs' ds → SameKinds gs gs' ∧
        BoundAlike A.egraph A.version B.egraph B.version c c' (b.enter gs ds) (b'.enter gs' ds)
          (pairUp e gs gs') := fun b b' e hJ gs gs' ds => hJ.enter
  -- inputs of one name have one distance to the base
  have hdist : ∀ {i j : InputInfo}, i ∈ c.inputs → j ∈ c'.inputs → j.param = i.param →
      i.absoluteUniverse + c'.base B.currentUniverse =
        j.absoluteUniverse + c.base A.currentUniverse := by
    intro i j hi hj hp
    exact add_eq_add_of_sub_eq_sub ((base_le c _).2 i hi) ((base_le c' _).2 j hj)
      (sameInput_of_name hc' hsame hi hj hp).universe_
  refine ⟨sameNames c c', ⟨fun x y z hx hy => ?_, fun x y z hx hy => ?_⟩,
    ⟨fun p q r hp hq => ?_, fun p q r hp hq => ?_⟩, fun p q hpq => ?_, fun x y hxy => ?_,
    ⟨c'.base B.currentUniverse, c.base A.currentUniverse, fun w w' hw => ?_⟩, hcomplete.symm,
    ?_, ?_⟩
  · obtain ⟨a, hxa, hza⟩ := hx
    obtain ⟨a', hya, hza'⟩ := hy
    obtain rfl := Option.some.inj (hza.symm.trans hza')
    exact hc.inferVars_injective hxa hya
  · obtain ⟨a, hxa, hya⟩ := hx
    obtain ⟨a', hxa', hza⟩ := hy
    obtain rfl := Option.some.inj (hxa.symm.trans hxa')
    exact hc'.inferVars_injective hya hza
  · obtain ⟨a, hpa, hra⟩ := hp
    obtain ⟨a', hqa, hra'⟩ := hq
    obtain rfl := Option.some.inj (hra.symm.trans hra')
    exact hc.freeParams_injective hpa hqa
  · obtain ⟨a, hpa, hqa⟩ := hp
    obtain ⟨a', hpa', hra⟩ := hq
    obtain rfl := Option.some.inj (hpa.symm.trans hpa')
    exact hc'.freeParams_injective hqa hra
  · obtain ⟨a, hp, hq⟩ := hpq
    exact (sameInput_of_name hc' hsame ((hc.rigid p a).mp hp) ((hc'.rigid q a).mp hq) rfl).kind
  · obtain ⟨a, hx, hy⟩ := hxy
    exact (sameInput_of_name hc' hsame ((hc.existential x a).mp hx)
      ((hc'.existential y a).mp hy) rfl).domain
  · cases hw with
    | current =>
        exact add_eq_add_of_sub_eq_sub (base_le c _).1 (base_le c' _).1 hu
    | var h =>
        obtain ⟨a, hx, hy⟩ := h
        exact hdist ((hc.existential _ a).mp hx) ((hc'.existential _ a).mp hy) rfl
    | param h =>
        obtain ⟨a, hp, hq⟩ := h
        exact hdist ((hc.rigid _ a).mp hp) ((hc'.rigid _ a).mp hq) rfl
  · refine RelAssumptions.join hT hE hempty _ _ _ hcan.assumptions ?_
    have h := hcan'.assumptions
    rwa [queryOf, ← has] at h
  · refine SolverGoal.Rel.join hT hE hempty hcan.goal ?_
    have h := hcan'.goal
    rwa [queryOf, ← hgoal] at h

end OfDataEq

end Canonicalizer

/-! ### Exactly alpha-equivalence -/

theorem Caller.query_ends {A : Caller} {S : Store}
    (h : VersionedEGraph.Represents A.egraph A.version S) :
    ∃ N, ∀ n ≥ N, ∃ query, A.query n = some query :=
  Canonicalizer.canonicalizeSolverGoal_ends h _ _ _ _

section Main

open VersionedEGraph

variable [HashOrder] {A B : Caller}

/-- Two callers have the same query exactly when their goals are alpha-equivalent, and their
universes have the same distances. -/
theorem canonicalizeSolverGoal_eq_iff (hA : Reachable Bound.IsExact A.egraph)
    (hB : Reachable Bound.IsExact B.egraph) (hlA : A.egraph.versions.isLive A.version = true)
    (hlB : B.egraph.versions.isLive B.version = true) :
    ∃ ρ σ, A.egraph.Resolution A.version ρ ∧ B.egraph.Resolution B.version σ ∧
      ∃ N, ∀ n ≥ N, ∃ query query', A.query n = some query ∧ B.query n = some query' ∧
        (query.1 = query'.1 ↔ ∃ m, AlphaEquiv A B ρ σ m SameDistances) := by
  obtain ⟨S, hS⟩ := (hA.modelled fun _ => id).store A.version hlA
  obtain ⟨S', hS'⟩ := (hB.modelled fun _ => id).store B.version hlB
  obtain ⟨N, hN⟩ := Caller.query_ends hS
  obtain ⟨N', hN'⟩ := Caller.query_ends hS'
  refine ⟨S.resolve, S'.resolve, hS.resolution, hS'.resolution, max N N', fun n hn => ?_⟩
  obtain ⟨query, hq⟩ := hN n (Nat.le_trans (Nat.le_max_left ..) hn)
  obtain ⟨query', hq'⟩ := hN' n (Nat.le_trans (Nat.le_max_right ..) hn)
  refine ⟨query, query', hq, hq', Canonicalizer.alphaEquiv_of_query_eq hS hS' hq hq', ?_⟩
  rintro ⟨m, hm⟩
  exact Canonicalizer.query_eq_of_alphaEquiv hS hS' hm hq hq'

end Main

/-- A caller in universe `u` that asks whether a variable of the oldest universe is itself. -/
def oneVariable (u : Universe) : Caller where
  egraph := (VersionedEGraph.new.allocVarInDomain 0 0 .any).2
  version := 0
  currentUniverse := u
  assumptionsComplete := true
  assumptions := []
  goal := .prove (.atom (.equals (.inferVar 0) (.inferVar 0)))

theorem oneVariable_eq_iff :
    ∃ ρ σ, (oneVariable 1).egraph.Resolution 0 ρ ∧ (oneVariable 2).egraph.Resolution 0 σ ∧
      ∃ N, ∀ n ≥ N, ∃ query query', (oneVariable 1).query n = some query ∧
        (oneVariable 2).query n = some query' ∧
        (query.1 = query'.1 ↔ ∃ m, AlphaEquiv (oneVariable 1) (oneVariable 2) ρ σ m SameDistances) := by
  have hroot : VersionedEGraph.new.IsMutable 0 := ⟨by decide, by decide⟩
  have hreach : VersionedEGraph.Reachable Bound.IsExact (oneVariable 1).egraph :=
    .step .new (.alloc hroot 0 .any)
  exact canonicalizeSolverGoal_eq_iff hreach hreach (by decide) (by decide)

/-- The same order of universes does not make one query: the queries record distances. -/
theorem oneVariable_query_ne :
    (oneVariable 1).egraph.Resolution 0 .inferVar ∧ (oneVariable 2).egraph.Resolution 0 .inferVar ∧
      (∃ m, AlphaEquiv (oneVariable 1) (oneVariable 2) .inferVar .inferVar m SameOrder) ∧
      ((oneVariable 1).query 2).map Prod.fst ≠ ((oneVariable 2).query 2).map Prod.fst := by
  have hresolve : (oneVariable 1).egraph.Resolution 0 .inferVar := by
    intro x
    refine ⟨1, fun m hm => ?_⟩
    obtain ⟨m, rfl⟩ := Nat.exists_eq_add_of_le' hm
    rfl
  refine ⟨hresolve, hresolve, ⟨⟨fun x y => x = 0 ∧ y = 0, fun _ _ => False⟩, ⟨?_, ?_⟩, ⟨?_, ?_⟩,
    nofun, ?_, ?_, rfl, .nil, .atom ⟨?_, ?_⟩⟩, by decide⟩
  · rintro x y z ⟨rfl, -⟩ ⟨rfl, -⟩
    rfl
  · rintro x y z ⟨-, rfl⟩ ⟨-, rfl⟩
    rfl
  · exact fun _ _ _ h => h.elim
  · exact fun _ _ _ h => h.elim
  · rintro x y ⟨rfl, rfl⟩
    rfl
  · rintro u u' w w' (_ | ⟨rfl, rfl⟩ | h) (_ | ⟨rfl, rfl⟩ | h') <;>
      first | exact h.elim | exact h'.elim | decide
  · rw [AlphaTy, Ty.subst_inferVar]
    exact .var ⟨0, rfl, rfl, rfl⟩
  · rw [AlphaTy, Ty.subst_inferVar]
    exact .var ⟨0, rfl, rfl, rfl⟩

end Sage
