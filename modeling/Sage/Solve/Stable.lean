import Sage.Infer.Publish
import Sage.Solve.Validation

/-!
# Solve — canonical queries that stay as they are

A stalled obligation keeps its canonical query, and is looked at again only when a commit wakes one
of the variables that the query stands over.  Any other commit leaves the query and its mapping as
they are, so that asking again would ask the same.

* `SameReading` — two states that read some variables alike.
* `Canonicalizer.query_same` — a goal over such variables has one query in both.
* `Commits.query_same` — so has a goal that a commit does not wake.
-/

namespace Sage

open Grow

set_option linter.unusedSectionVars false

/-! ### The types of a goal with a canonical form -/

section Each

variable {β : Type} {enter : β → List GenericParam → List GenericParam → β}
  {T : β → Ty → Ty → Prop} {E : β → List GenericParam → List GenericParam → Prop}
  {Q : Ty → Prop} (hQ : ∀ b t u, T b t u → Q t)
include hQ

theorem each_of_forall₂ {b : β} {ts us : List Ty} (h : List.Forall₂ (T b) ts us) :
    ∀ t ∈ ts, Q t := by
  induction h with
  | nil => exact fun _ ht => absurd ht List.not_mem_nil
  | cons h _ ih => exact List.forall_mem_cons.mpr ⟨hQ _ _ _ h, ih⟩

theorem Atom.Rel.each {b : β} : {a d : Atom} → a.Rel (T b) d → ∀ t ∈ a.types, Q t
  | .traitImpl _ _, .traitImpl _ _, h =>
      List.forall_mem_cons.mpr ⟨hQ _ _ _ h.1, each_of_forall₂ hQ h.2.args⟩
  | .equals _ _, .equals _ _, h =>
      List.forall_mem_cons.mpr ⟨hQ _ _ _ h.1, List.forall_mem_singleton.mpr (hQ _ _ _ h.2)⟩

theorem AliasTy.Rel.each {b : β} : {a d : AliasTy} → a.Rel (T b) d → ∀ t ∈ a.types, Q t
  | .named _ _, .named _ _, h | .opaqueAlias _ _, .opaqueAlias _ _, h => each_of_forall₂ hQ h.2
  | .associated _ _ _ _ _, .associated _ _ _ _ _, ⟨_, _, ht, hts, has⟩ =>
      List.forall_mem_cons.mpr ⟨hQ _ _ _ ht,
        List.forall_mem_append.mpr ⟨each_of_forall₂ hQ hts, each_of_forall₂ hQ has⟩⟩

mutual

theorem Goal.Rel.each {b : β} {bound : List GenericParam} : (g d : Goal) → g.Rel enter T E b d →
    g.Each (fun _ => Q) (fun _ => True) bound
  | .exists _ g, _, .exists _ h => by
      rw [Goal.Each]
      exact ⟨trivial, Goal.Rel.each g _ h⟩
  | .implies as g, _, .implies has h => by
      rw [Goal.Each]
      exact ⟨RelAssumptions.each as _ has, Goal.Rel.each g _ h⟩
  | .all gs, _, .all h => by
      rw [Goal.Each]
      exact RelGoals.each gs _ h
  | .atom _, _, .atom h => by
      rw [Goal.Each]
      exact Atom.Rel.each hQ h
  | .maybe, _, .maybe => by
      rw [Goal.Each]
      trivial

theorem Assumption.Rel.each {b : β} {bound : List GenericParam} : (a d : Assumption) →
    a.Rel enter T E b d → a.Each (fun _ => Q) (fun _ => True) bound
  | .traitImpl _ _, _, .traitImpl ht hr => by
      rw [Assumption.Each]
      exact List.forall_mem_cons.mpr ⟨hQ _ _ _ ht, each_of_forall₂ hQ hr.args⟩
  | .normalizesTo _ _, _, .normalizesTo ha ht => by
      rw [Assumption.Each]
      exact ⟨AliasTy.Rel.each hQ ha, hQ _ _ _ ht⟩
  | .implies gs _, _, .implies hgs hp => by
      rw [Assumption.Each]
      exact ⟨RelGoals.each gs _ hgs,
        List.forall_mem_cons.mpr ⟨hQ _ _ _ hp.selfTy, each_of_forall₂ hQ hp.traitRef.args⟩⟩
  | .all as, _, .all h => by
      rw [Assumption.Each]
      exact RelAssumptions.each as _ h

theorem RelGoals.each {b : β} {bound : List GenericParam} : (gs ds : List Goal) →
    RelGoals enter T E b gs ds → EachGoal (fun _ => Q) (fun _ => True) bound gs
  | [], _, _ => by
      rw [EachGoal]
      trivial
  | g :: gs, _, .cons h hs => by
      rw [EachGoal]
      exact ⟨Goal.Rel.each g _ h, RelGoals.each gs _ hs⟩

theorem RelAssumptions.each {b : β} {bound : List GenericParam} : (as ds : List Assumption) →
    RelAssumptions enter T E b as ds → EachAssumption (fun _ => Q) (fun _ => True) bound as
  | [], _, _ => by
      rw [EachAssumption]
      trivial
  | a :: as, _, .cons h hs => by
      rw [EachAssumption]
      exact ⟨Assumption.Rel.each a _ h, RelAssumptions.each as _ hs⟩

end

theorem SolverGoal.Rel.each {b : β} {goal d : SolverGoal} (h : goal.Rel enter T E b d) :
    goal.Each (fun _ => Q) fun _ => True := by
  cases goal <;> cases d
  case prove.prove g d => exact Goal.Rel.each hQ g d h
  case normalize.normalize a d => exact AliasTy.Rel.each hQ h
  all_goals exact h.elim

end Each

/-- A type is matched with itself, variable by variable. -/
theorem Ty.matched_self {V : InferVarIndex → InferVarIndex → Prop} {t : Ty}
    (h : ∀ x ∈ t.vars, V x x) : t.Matched V Eq t := by
  induction t using Ty.induction with
  | step t ih =>
      rcases t.cases_leaf with ht | ⟨x, rfl⟩ | ⟨p, rfl⟩
      · refine (Ty.folded_inner ht).mpr ⟨ht, ?_, List.forall₂_same.mpr fun c hc => ?_⟩
        · have hconst : ∀ k : Const, k.Rel Eq k := fun k => by cases k <;> rfl
          cases (decompose t).skeleton <;> first | exact hconst _ | rfl
        · exact ih c hc fun x hx => h x ((Ty.mem_vars_iff ht.rigid).mpr ⟨c, hc, hx⟩)
      · exact .var ⟨x, rfl, h x (by simp)⟩
      · exact .param ⟨p, rfl, rfl⟩

/-! ### States that read alike -/

/-- Variables of which two states say the same, beside the placeholders. -/
structure SameReading (g g' : VersionedEGraph) (v : Version) (K : InferVarIndex → Prop) : Prop where
  domain : ∀ x, K x → g'.effectiveDomain v (.inferVar x) = g.effectiveDomain v (.inferVar x)
  ceiling : ∀ x, K x → g'.currentUniverse v x = g.currentUniverse v x
  placeholder : g'.placeholderUniverse = g.placeholderUniverse

namespace Canonicalizer

variable {g g' : VersionedEGraph} {v : Version} {S S' : Store} {K : InferVarIndex → Prop}

theorem lockstep_eq {α : Type} {f f' : Fold α} (h : f' = f) : Lockstep Eq f f' := by
  rintro s _ rfl a s' b t' hrun hrun'
  rw [h, hrun] at hrun'
  obtain ⟨rfl, rfl⟩ := Prod.mk.inj (Option.some.inj hrun')
  exact ⟨rfl, rfl⟩

/-- A canonical form names the variables of a type. -/
theorem Named.mem_inferVars {c : Canonicalizer} {b : Binders} {t u : Ty} (h : c.Named b t u) :
    ∀ x ∈ t.vars, ∃ a, c.inferVars x = some a := by
  induction t using Ty.induction generalizing u with
  | step t ih =>
      intro x hx
      rcases t.cases_leaf with ht | ⟨y, rfl⟩ | ⟨p, rfl⟩
      · obtain ⟨d, hd, hx⟩ := (Ty.mem_vars_iff ht.rigid).mp hx
        obtain ⟨e, hde⟩ := each_of_forall₂ (T := fun _ : Unit => c.Named b)
          (Q := fun d => ∃ e, c.Named b d e) (b := ()) (fun _ _ e hde => ⟨e, hde⟩)
          ((Ty.folded_inner ht).mp h).children d hd
        exact ih d hd hde x hx
      · obtain ⟨a, ha, -⟩ := Ty.folded_inferVar.mp h
        obtain rfl := Ty.mem_vars_inferVar.mp hx
        exact ⟨a, ha⟩
      · obtain ⟨d, hd, -⟩ := (Ty.mem_vars_iff (t := .param p) trivial).mp hx
        exact absurd hd List.not_mem_nil

section Same

variable (hS : VersionedEGraph.Represents g v S) (hS' : VersionedEGraph.Represents g' v S')
  (he : S.Equates S') (hread : SameReading g g' v K)
  (hroot : ∀ x, K x → S'.resolve x = .inferVar x)
include hS hS' he hread hroot

/-- A type over variables that read alike is folded alike. -/
theorem foldTy_same (n : Nat) (b : Binders) {t : Ty}
    (ht : ∀ x ∈ (t.subst S.resolve).vars, K x) :
    Lockstep Eq (foldTy g v n b t) (foldTy g' v n b t) := by
  -- the type resolves to the same type in both states
  have hsame : t.subst S'.resolve = t.subst S.resolve := by
    rw [← he.subst_subst]
    exact Ty.subst_eq_self_iff.mpr fun x hx => hroot x (ht x hx)
  have hmatched : (t.subst S.resolve).Matched (fun x y => x = y ∧ K x) Eq
      (t.subst S'.resolve) := by
    rw [hsame]
    exact Ty.matched_self fun x hx => ⟨rfl, ht x hx⟩
  refine foldTy_lockstep hS hS' ?_ ?_ n t t hmatched
  · rintro x _ ⟨rfl, hx⟩
    refine lockstep_eq ?_
    simp only [foldInferVar, hread.domain x hx, hread.ceiling x hx]
  · rintro p _ rfl
    refine lockstep_eq ?_
    simp only [foldGenericParam, hread.placeholder]

/-- A goal whose query stands over variables that read alike has the same query and mapping in
both states. -/
theorem query_same {fuel : Nat} {u : Universe} {complete : Bool} {as : List Assumption}
    {goal : SolverGoal} {query query' : GoalQueryData × CanonicalMapping}
    (hq : g.canonicalizeSolverGoal fuel v u complete as goal = some query)
    (hq' : g'.canonicalizeSolverGoal fuel v u complete as goal = some query')
    (hK : ∀ x, .existential x ∈ query.2.inputs → S.Unresolved x → K x) : query' = query := by
  obtain ⟨as₁, c₁, goal₁, c, has, hgoal, rfl⟩ := canonicalize_run hq
  obtain ⟨as₂, c₂, goal₂, c', has', hgoal', rfl⟩ := canonicalize_run hq'
  have hcan := canonicalized hS u complete has hgoal
  -- the variables of the resolved goal are inputs of its query
  have hnamed : ∀ (b : Scope) (t d : Ty), c.NamedIn S b t d →
      ∀ x ∈ (t.subst S.resolve).vars, K x := by
    intro b t d ht x hx
    obtain ⟨a, ha⟩ := Named.mem_inferVars ht x hx
    exact hK x (List.mem_map.mpr ⟨_, (hcan.wf.existential x a).mp ha, rfl⟩)
      (Store.unresolved_of_mem hx)
  have hty : ∀ (bound : List GenericParam) (b b' : Binders), b' = b → ∀ t w,
      SelfTy (fun _ t => ∀ x ∈ (t.subst S.resolve).vars, K x) bound t w →
        Lockstep Eq ((walker g v fuel).ty b t) ((walker g' v fuel).ty b' w) := by
    rintro bound _ b rfl _ t ⟨rfl, ht⟩
    exact foldTy_same hS hS' he hread hroot fuel b ht
  have hrename : ∀ (bound gs gs' : List GenericParam), gs' = gs →
      Lockstep Eq (gs.mapM (walker g v fuel).rename) (gs'.mapM (walker g' v fuel).rename) := by
    rintro bound _ gs rfl
    exact lockstep_eq rfl
  have henter : ∀ (bound : List GenericParam) (b b' : Binders) (gs gs' ts : List GenericParam),
      b' = b → gs' = gs → ts.length = gs.length → b'.enter gs' ts = b.enter gs ts := by
    rintro bound _ b _ gs ts rfl rfl -
    rfl
  have hassumptions := walkAssumptions_lockstep hty hrename henter (rfl : (fun _ => none) = _) _ _
    (relAssumptions_self [] _ (RelAssumptions.each hnamed _ _ hcan.assumptions))
  obtain ⟨rfl, rfl⟩ := hassumptions _ _ rfl _ _ _ _ has has'
  have hself := SolverGoal.Rel.each hnamed hcan.goal
  have hfold : Lockstep Eq (foldSolverGoal g v fuel goal.spliced)
      (foldSolverGoal g' v fuel goal.spliced) := by
    revert hself
    cases goal.spliced with
    | prove goal =>
        intro hself
        exact (goal.walk_lockstep hty hrename henter rfl goal (goal.rel_self [] hself)).bind
          fun _ => .pure _
    | normalize a =>
        intro hself
        exact (AliasTy.mapM_lockstep (hty [] _ _ rfl) (AliasTy.rel_self hself)).bind
          fun _ => .pure _
  obtain ⟨rfl, rfl⟩ := hfold _ _ rfl _ _ _ _ hgoal hgoal'
  rfl

end Same

end Canonicalizer

namespace VersionedEGraph

section Commits

variable [HashOrder] {g g' : VersionedEGraph} {parent : Version} {effects : CommitEffects}

/-- What a commit does not wake reads as before. -/
theorem Commits.sameReading {bounds : Bound → Prop}
    (h : AllAccounted (∀ b, bounds b → b.IsExact) g) (hc : Commits bounds g parent effects g') :
    SameReading g g' parent fun x => x ∈ g.versions.visibleVariables parent ∧
      x ∉ effects.wakes ∧ g.find parent (.inferVar x) = .inferVar x where
  domain x hx := by
    obtain ⟨hvisible, hwake, hroot⟩ := hx
    have hacc := canAccess_of_mem_visible hvisible
    have hkept := ((hc.publishes h).kept x hvisible hwake hroot).2.1
    rw [observe_domain_of_root hroot hacc] at hkept
    simp only [observe] at hkept
    obtain ⟨i, -, hd⟩ := Option.bind_eq_some_iff.mp hkept
    rw [hd, effectiveDomain_of_root hroot]
  ceiling x hx := by
    obtain ⟨hvisible, hwake, hroot⟩ := hx
    have hacc := canAccess_of_mem_visible hvisible
    have hkept := ((hc.publishes h).kept x hvisible hwake hroot).2.2.2
    simp only [observe, hacc, if_true] at hkept
    split at hkept
    · exact Option.some.inj hkept
    · cases hkept
  placeholder := hc.placeholderUniverse_eq h

/-- A goal whose canonical query stands over visible variables that a commit does not wake has the
same query and the same mapping after the commit, in every reachable state: what a stalled
obligation would ask has not changed as long as it is not woken. -/
theorem Commits.query_same (hg : Reachable Bound.IsExact g)
    (hc : Commits Bound.IsExact g parent effects g') (u : Universe) (complete : Bool)
    (as : List Assumption) (goal : SolverGoal) :
    ∃ N, ∀ n ≥ N, ∃ data mapping,
      g.canonicalizeSolverGoal n parent u complete as goal = some (data, mapping) ∧
        ((∀ x, .existential x ∈ mapping.inputs →
            x ∈ g.versions.visibleVariables parent ∧ x ∉ effects.wakes) →
          g'.canonicalizeSolverGoal n parent u complete as goal = some (data, mapping)) := by
  have hall := AllAccounted.reachable hg
  obtain ⟨S, hS⟩ := (hg.modelled fun _ => id).store parent hc.isLive
  obtain ⟨S', hS', he⟩ := hc.refinesStore (fun _ => id) hall S hS
  obtain ⟨N, hN⟩ := Canonicalizer.canonicalizeSolverGoal_ends hS u complete as goal
  obtain ⟨N', hN'⟩ := Canonicalizer.canonicalizeSolverGoal_ends hS' u complete as goal
  refine ⟨max N N', fun n hn => ?_⟩
  obtain ⟨query, hq⟩ := hN n (Nat.le_trans (Nat.le_max_left ..) hn)
  obtain ⟨query', hq'⟩ := hN' n (Nat.le_trans (Nat.le_max_right ..) hn)
  refine ⟨query.1, query.2, hq, fun hkept => ?_⟩
  -- an unresolved variable that is not woken stays unresolved
  have hroot : ∀ x, x ∈ g.versions.visibleVariables parent ∧ x ∉ effects.wakes ∧
      g.find parent (.inferVar x) = .inferVar x → S'.resolve x = .inferVar x := by
    rintro x ⟨hvisible, hwake, hroot⟩
    have hkept : g'.find parent (.inferVar x) = .inferVar x :=
      ((hc.publishes hall).kept x hvisible hwake hroot).1
    rwa [hS'.find_eq_inferVar, Ty.subst_inferVar] at hkept
  have hsame := Canonicalizer.query_same hS hS' he (hc.sameReading hall) hroot hq hq'
    fun x hx hu => ⟨(hkept x hx).1, (hkept x hx).2, hS.find_eq_inferVar.mpr (by
      rw [Ty.subst_inferVar]
      exact hu)⟩
  rw [hq', hsame]

end Commits

end VersionedEGraph

end Sage
