import Sage.Solve.AlphaEquiv

/-!
# Solve — which canonical queries validate

The canonicalizer of `canonical.rs` and `validate_goal_query` of `goal.rs` walk goals separately.
For a caller whose inputs are no newer than its universe they agree on everything but one case:
the validator rejects every array length that is a const parameter, also a visible one.

* `Goal.Each` — a condition on the types and the binders of a goal.
* `validateTy_named`, `validateGoal_named` — validation of what the canonicalizer computes.
* `validateGoalQuery_canonical` — exactly when the canonical query validates.
-/

namespace Sage

open Canonicalizer

/-! ### Conditions on goals -/

def Atom.types : Atom → List Ty
  | .traitImpl selfTy traitRef => selfTy :: traitRef.args
  | .equals left right => [left, right]

def AliasTy.types : AliasTy → List Ty
  | .named _ args => args
  | .associated _ selfTy _ traitArgs args => selfTy :: (traitArgs ++ args)
  | .opaqueAlias _ args => args

section Each

/- `P` is about the types under the parameters bound around them, `B` about binders. -/
variable (P : List GenericParam → Ty → Prop) (B : List GenericParam → Prop)

mutual

def Goal.Each (bound : List GenericParam) : Goal → Prop
  | .exists gs g => B gs ∧ Goal.Each (gs ++ bound) g
  | .implies as g => EachAssumption bound as ∧ Goal.Each bound g
  | .all gs => EachGoal bound gs
  | .atom a => ∀ t ∈ a.types, P bound t
  | .maybe => True

def Assumption.Each (bound : List GenericParam) : Assumption → Prop
  | .traitImpl t r => ∀ u ∈ t :: r.args, P bound u
  | .normalizesTo a t => (∀ u ∈ a.types, P bound u) ∧ P bound t
  | .implies gs p => EachGoal bound gs ∧ ∀ u ∈ p.selfTy :: p.traitRef.args, P bound u
  | .all as => EachAssumption bound as

@[grind =] def EachGoal (bound : List GenericParam) : List Goal → Prop
  | [] => True
  | g :: gs => Goal.Each bound g ∧ EachGoal bound gs

@[grind =] def EachAssumption (bound : List GenericParam) : List Assumption → Prop
  | [] => True
  | a :: as => Assumption.Each bound a ∧ EachAssumption bound as

end

def SolverGoal.Each : SolverGoal → Prop
  | .prove g => g.Each P B []
  | .normalize a => ∀ t ∈ a.types, P [] t

variable {P B} {bound : List GenericParam}

theorem eachGoal_iff {gs : List Goal} : EachGoal P B bound gs ↔ ∀ g ∈ gs, g.Each P B bound := by
  induction gs with
  | nil => simp [EachGoal]
  | cons g gs ih => simp [EachGoal, ih]

theorem eachAssumption_iff {as : List Assumption} :
    EachAssumption P B bound as ↔ ∀ a ∈ as, a.Each P B bound := by
  induction as with
  | nil => simp [EachAssumption]
  | cons a as ih => simp [EachAssumption, ih]

mutual

theorem Goal.each_conjuncts : (g : Goal) →
    ((∀ c ∈ g.conjuncts, c.Each P B bound) ↔ g.Each P B bound)
  | .all gs => by
      rw [Goal.conjuncts, Goal.conjunctsList_eq_flatMap, each_flatMap gs, Goal.Each]
  | .exists _ _ | .implies _ _ | .atom _ | .maybe => by simp [Goal.conjuncts]

theorem each_flatMap : (gs : List Goal) →
    ((∀ c ∈ gs.flatMap Goal.conjuncts, c.Each P B bound) ↔ EachGoal P B bound gs)
  | [] => by simp [EachGoal]
  | g :: gs => by
      rw [List.flatMap_cons, List.forall_mem_append, g.each_conjuncts, each_flatMap gs, EachGoal]

end

mutual

theorem Assumption.each_facts : (a : Assumption) →
    ((∀ f ∈ a.facts, f.Each P B bound) ↔ a.Each P B bound)
  | .all as => by
      rw [Assumption.facts, Assumption.factsList_eq_flatMap, each_flatMap_facts as, Assumption.Each]
  | .traitImpl _ _ | .normalizesTo _ _ | .implies _ _ => by simp [Assumption.facts]

theorem each_flatMap_facts : (as : List Assumption) →
    ((∀ f ∈ as.flatMap Assumption.facts, f.Each P B bound) ↔ EachAssumption P B bound as)
  | [] => by simp [EachAssumption]
  | a :: as => by
      rw [List.flatMap_cons, List.forall_mem_append, a.each_facts, each_flatMap_facts as,
        EachAssumption]

end

theorem each_flatten {as : List Assumption} :
    EachAssumption P B bound (Assumption.flatten as) ↔ EachAssumption P B bound as := by
  rw [eachAssumption_iff, Assumption.flatten_eq, each_flatMap_facts]

mutual

/-- Splicing keeps the types and the binders of a goal. -/
theorem Goal.each_spliced : (bound : List GenericParam) → (g : Goal) →
    (g.spliced.Each P B bound ↔ g.Each P B bound)
  | bound, .exists gs g => by
      rw [Goal.spliced, Goal.Each, Goal.Each, g.each_spliced]
  | bound, .implies as g => by
      rw [Goal.spliced, Goal.Each, Goal.Each, g.each_spliced, each_flatten,
        eachAssumption_spliced bound as]
  | bound, .all gs => by
      rw [Goal.spliced, Goal.mkAll, Goal.conjunctsList_eq_flatMap, Goal.Each, eachGoal_iff,
        each_flatMap, eachGoal_spliced bound gs, Goal.Each]
  | bound, .atom a => by rw [Goal.spliced]
  | bound, .maybe => by rw [Goal.spliced]

theorem Assumption.each_spliced : (bound : List GenericParam) → (a : Assumption) →
    (a.spliced.Each P B bound ↔ a.Each P B bound)
  | bound, .traitImpl t r => by rw [Assumption.spliced]
  | bound, .normalizesTo a t => by rw [Assumption.spliced]
  | bound, .implies gs p => by
      rw [Assumption.spliced, Assumption.Each, Assumption.Each, eachGoal_spliced bound gs]
  | bound, .all as => by
      rw [Assumption.spliced, Assumption.Each, Assumption.Each, each_flatten,
        eachAssumption_spliced bound as]

theorem eachGoal_spliced : (bound : List GenericParam) → (gs : List Goal) →
    (EachGoal P B bound (splicedGoals gs) ↔ EachGoal P B bound gs)
  | bound, [] => by rw [splicedGoals]
  | bound, g :: gs => by
      rw [splicedGoals, EachGoal, EachGoal, g.each_spliced, eachGoal_spliced bound gs]

theorem eachAssumption_spliced : (bound : List GenericParam) → (as : List Assumption) →
    (EachAssumption P B bound (splicedAssumptions as) ↔ EachAssumption P B bound as)
  | bound, [] => by rw [splicedAssumptions]
  | bound, a :: as => by
      rw [splicedAssumptions, EachAssumption, EachAssumption, a.each_spliced,
        eachAssumption_spliced bound as]

end

theorem SolverGoal.each_spliced (goal : SolverGoal) : goal.spliced.Each P B ↔ goal.Each P B := by
  cases goal with
  | prove g => exact g.each_spliced []
  | normalize a => exact Iff.rfl

end Each

/-! ### Validation of canonical types -/

section ValidateTy

open Terms

theorem bind_eq_ok {α : Type} {x : Except String α} {f : α → Except String Unit} :
    (x >>= f) = .ok () ↔ ∃ a, x = .ok a ∧ f a = .ok () := by
  cases x with
  | error e => exact iff_of_false (fun h => by cases h) (by rintro ⟨_, h, _⟩; cases h)
  | ok a => exact ⟨fun h => ⟨a, rfl, h⟩, fun ⟨_, h, h'⟩ => by cases h; exact h'⟩

theorem seq_eq_ok {x y : Except String Unit} :
    (do x; y) = .ok () ↔ x = .ok () ∧ y = .ok () := by
  rw [bind_eq_ok]
  exact ⟨fun ⟨_, hx, hy⟩ => ⟨hx, hy⟩, fun ⟨hx, hy⟩ => ⟨(), hx, hy⟩⟩

theorem validateTerms_eq_ok {visible : List AlphaEquivParam} {ts : List (Term Skeleton InferVarIndex)} :
    validateTerms visible ts = .ok () ↔ ∀ t ∈ ts, validateTerm visible t = .ok () := by
  induction ts with
  | nil => simp [validateTerms]
  | cons t ts ih => rw [validateTerms, seq_eq_ok, ih, List.forall_mem_cons]

theorem validateTys_eq_ok {visible : List AlphaEquivParam} {ts : List Ty} :
    validateTys visible ts = .ok () ↔ ∀ t ∈ ts, validateTy visible t = .ok () := by
  induction ts with
  | nil => exact ⟨fun _ _ h => absurd h List.not_mem_nil, fun _ => rfl⟩
  | cons t ts ih =>
      rw [List.forall_mem_cons, ← ih]
      exact seq_eq_ok

theorem validateTy_rigid {visible : List AlphaEquivParam} {t : Ty} (h : t.Rigid) :
    validateTy visible t = .ok () ↔ validateHead visible (decompose t).skeleton = .ok () ∧
      ∀ c ∈ (decompose t).children, validateTy visible c = .ok () := by
  rw [validateTy, Ty.term_eq h, validateTerm, seq_eq_ok, validateTerms_eq_ok, List.forall_mem_map]
  rfl

/-- No array length of the type is a const parameter. -/
def Ty.NoConstParam (t : Ty) : Prop := t.All (fun s => ∀ p, s ≠ .array (.param p)) fun _ => True

theorem Ty.noConstParam_inner {t : Ty} (h : t.Inner) : t.NoConstParam ↔
    (∀ p, (decompose t).skeleton ≠ .array (.param p)) ∧
      ∀ c ∈ (decompose t).children, c.NoConstParam := Ty.all_iff h.rigid

/-- A head other than a parameter or an array with a const parameter validates. -/
theorem validateHead_inner {visible : List AlphaEquivParam} {t : Ty} (h : t.Inner) :
    validateHead visible (decompose t).skeleton = .ok () ↔
      ∀ p, (decompose t).skeleton ≠ .array (.param p) := by
  rcases t with _ | _ | _ | _ | _ | _ | _ | (_ | _ | _) | _ | _ | _ | ⟨inner, _ | (_ | _ | p) | _⟩ |
    _ | _ | _ | _ | _ <;> first | exact h.elim | simp [decompose, leaf, validateHead]
  split <;> simp

variable {c : Canonicalizer} {b : Scope} {visible : List AlphaEquivParam}

/-- The parameters the validator has seen: the inputs and the names of the binders around. -/
def Sees (c : Canonicalizer) (b : Scope) (visible : List AlphaEquivParam) : Prop :=
  ∀ a, a ∈ visible ↔ a ∈ c.inputs.map InputInfo.param ∨ .alphaEquiv a ∈ b.names

theorem validateTy_named {g : VersionedEGraph} {v : Version} (hb : Fits g v b c)
    (hv : Sees c b visible) {t u : Ty} (h : c.Named b.binders t u) :
    validateTy visible u = .ok () ↔ t.NoConstParam := by
  have hname : ∀ {p n : GenericParam}, c.lookup b.binders p = some n →
      ∃ a, n = .alphaEquiv a ∧ a ∈ visible := by
    intro p n hn
    rw [lookup, Option.or_eq_some_iff] at hn
    rcases hn with hn | ⟨-, hn⟩
    · have hmem := hb.range p n hn
      obtain ⟨a, rfl, -⟩ := hb.private_ n hmem
      exact ⟨a, rfl, (hv a).mpr (.inr hmem)⟩
    · obtain ⟨a, ha, rfl⟩ := Option.map_eq_some_iff.mp hn
      exact ⟨a, rfl, (hv a).mpr (.inl (List.mem_map.mpr ⟨_, (hb.wf.rigid p a).mp ha, rfl⟩))⟩
  have hparam : ∀ {a : AlphaEquivParam}, a ∈ visible →
      validateTy visible (.param (.alphaEquiv a)) = .ok () := by
    intro a ha
    rw [validateTy_rigid (t := .param (.alphaEquiv a)) trivial]
    exact ⟨by simp [decompose, leaf, validateHead, ha], fun c hc => absurd hc List.not_mem_nil⟩
  induction t using Ty.induction generalizing u with
  | step t ih =>
      rcases t.cases_leaf with ht | ⟨x, rfl⟩ | ⟨p, rfl⟩
      · have hr := (Ty.folded_inner ht).mp h
        rw [validateTy_rigid hr.inner.rigid, validateHead_inner hr.inner, Ty.noConstParam_inner ht]
        refine and_congr ?_ ?_
        · have hs := hr.skeleton
          rcases Skeleton.rel_iff.mp hs with ⟨k, d, hk, hd, hkd⟩ | ⟨-, hs⟩
          · rw [hk, hd]
            revert hkd
            cases k <;> cases d <;> simp [Const.Rel]
          · rw [hs]
        · have hc := hr.children
          revert ih hc
          generalize (decompose t).children = ts
          generalize (decompose u).children = us
          intro ih hc
          induction hc with
          | nil => simp
          | cons htu _ ihs =>
              rw [List.forall_mem_cons, List.forall_mem_cons]
              exact and_congr (ih _ List.mem_cons_self htu)
                (ihs fun k hk => ih k (List.mem_cons_of_mem _ hk))
      · obtain ⟨a, ha, rfl⟩ := Ty.folded_inferVar.mp h
        have hmem : a ∈ c.inputs.map InputInfo.param :=
          List.mem_map.mpr ⟨_, (hb.wf.existential x a).mp ha, rfl⟩
        exact iff_of_true (hparam ((hv a).mpr (.inl hmem))) (Ty.all_inferVar.mpr trivial)
      · obtain ⟨n, hn, rfl⟩ := Ty.folded_param.mp h
        obtain ⟨a, rfl, ha⟩ := hname hn
        refine iff_of_true (hparam ha) ((Ty.all_iff (t := .param p) trivial).mpr ⟨?_, ?_⟩)
        · simp [decompose, leaf]
        · exact fun c hc => absurd hc List.not_mem_nil

end ValidateTy

/-! ### Validation of canonical goals -/

section ValidateGoal

variable {g : VersionedEGraph} {v : Version} {c : Canonicalizer} {b : Scope} {S : Store}
  {visible : List AlphaEquivParam} {next : Nat}

/-- New names are visible inside their binder, if they are all of types. -/
theorem validateBinder_spec {gs : List GenericParam}
    (hgs : ∀ q ∈ gs, ∃ a, q = .alphaEquiv a ∧ a.index < next ∧ a ∉ visible) (hnd : gs.Nodup) :
    ((∃ visible', validateBinder next gs visible = .ok visible') ↔ ∀ q ∈ gs, q.kind = .type) ∧
      ∀ visible', validateBinder next gs visible = .ok visible' →
        ∀ a, a ∈ visible' ↔ a ∈ visible ∨ .alphaEquiv a ∈ gs := by
  induction gs generalizing visible with
  | nil =>
      refine ⟨iff_of_true ⟨visible, rfl⟩ (by simp), fun visible' h a => ?_⟩
      obtain rfl : visible = visible' := by simpa [validateBinder] using h
      simp
  | cons q gs ih =>
      obtain ⟨n, rfl, hlt, hnot⟩ := hgs q List.mem_cons_self
      have hrest : ∀ q ∈ gs, ∃ a, q = .alphaEquiv a ∧ a.index < next ∧ a ∉ n :: visible := by
        intro q hq
        obtain ⟨a, rfl, ha, hav⟩ := hgs q (List.mem_cons_of_mem _ hq)
        refine ⟨a, rfl, ha, fun hm => ?_⟩
        rcases List.mem_cons.mp hm with rfl | hm
        · exact (List.nodup_cons.mp hnd).1 hq
        · exact hav hm
      obtain ⟨hok, hmem⟩ := ih hrest (List.nodup_cons.mp hnd).2
      by_cases hk : n.kind = .type
      · have hstep : validateBinder next (.alphaEquiv n :: gs) visible =
            validateBinder next gs (n :: visible) := by
          simp [validateBinder, hk, hnot, hlt]
        rw [hstep, hok, List.forall_mem_cons]
        refine ⟨⟨fun h => ⟨hk, h⟩, And.right⟩, fun visible' h a => ?_⟩
        rw [hmem visible' h a]
        simp only [List.mem_cons, GenericParam.alphaEquiv.injEq]
        tauto
      · have hstep : validateBinder next (.alphaEquiv n :: gs) visible =
            .error "invalid existential binder parameter" := by
          simp [validateBinder, hk]
        rw [hstep]
        refine ⟨iff_of_false (by rintro ⟨_, h⟩; cases h) fun h => ?_, fun _ h => by cases h⟩
        exact hk (h _ List.mem_cons_self)

/-- A binder of type parameters. -/
def TypeBinder (gs : List GenericParam) : Prop := ∀ p ∈ gs, p.kind = .type

theorem typeBinder_congr {gs gs' : List GenericParam} (h : SameKinds gs gs') :
    TypeBinder gs' ↔ TypeBinder gs := by
  rw [TypeBinder, TypeBinder]
  induction h with
  | nil => simp
  | cons hk _ ih => rw [List.forall_mem_cons, List.forall_mem_cons, ih, hk]

theorem Sees.enter (hv : Sees c b visible) {gs gs' : List GenericParam}
    {visible' : List AlphaEquivParam}
    (h : ∀ a, a ∈ visible' ↔ a ∈ visible ∨ .alphaEquiv a ∈ gs') : Sees c (b.enter gs gs') visible' := by
  intro a
  rw [h, hv a, Scope.enter, List.mem_append, or_assoc, or_comm (a := _ ∈ b.names)]

theorem validateBinder_binds (hv : Sees c b visible) {gs gs' : List GenericParam}
    (hgs : c.Binds b gs gs') :
    ((∃ visible', validateBinder c.nextParam gs' visible = .ok visible') ↔ TypeBinder gs) ∧
      ∀ visible', validateBinder c.nextParam gs' visible = .ok visible' →
        Sees c (b.enter gs gs') visible' := by
  have hnew : ∀ q ∈ gs', ∃ a, q = .alphaEquiv a ∧ a.index < c.nextParam ∧ a ∉ visible := by
    intro q hq
    obtain ⟨a, rfl, hlt, hnot⟩ := hgs.private_ q hq
    refine ⟨a, rfl, hlt, fun ha => ?_⟩
    exact ((hv a).mp ha).elim hnot (hgs.fresh _ hq)
  obtain ⟨hok, hmem⟩ := validateBinder_spec hnew hgs.nodup
  exact ⟨hok.trans (typeBinder_congr hgs.kinds), fun visible' h => hv.enter (hmem visible' h)⟩

variable (S) in
/-- The resolved types have no const parameters as array lengths. -/
def Checks (_ : List GenericParam) (t : Ty) : Prop := (t.subst S.resolve).NoConstParam

section Parts

variable (hb : Fits g v b c) (hv : Sees c b visible) {bound : List GenericParam}
include hb hv

theorem validateTys_named {ts us : List Ty} (h : List.Forall₂ (c.NamedIn S b) ts us) :
    validateTys visible us = .ok () ↔ ∀ t ∈ ts, Checks S bound t := by
  rw [validateTys_eq_ok]
  induction h with
  | nil => simp
  | cons htu _ ih =>
      rw [List.forall_mem_cons, List.forall_mem_cons, ih, validateTy_named hb hv htu]
      rfl

theorem validatePredicate_named {t u : Ty} {r r' : TraitRef} (ht : c.NamedIn S b t u)
    (hr : r.Rel (c.NamedIn S b) r') :
    validatePredicate visible u r' = .ok () ↔ ∀ w ∈ t :: r.args, Checks S bound w := by
  rw [validatePredicate, seq_eq_ok, validateTy_named hb hv ht, validateTys_named hb hv hr.args,
    List.forall_mem_cons]
  rfl

theorem validateAlias_named {a a' : AliasTy} (h : a.Rel (c.NamedIn S b) a') :
    validateAlias visible a' = .ok () ↔ ∀ w ∈ a.types, Checks S bound w := by
  cases a <;> cases a' <;> first | exact h.elim | skip
  case named => exact validateTys_named hb hv h.2
  case opaqueAlias => exact validateTys_named hb hv h.2
  case associated =>
    obtain ⟨-, -, ht, hts, has⟩ := h
    rw [validateAlias, seq_eq_ok, seq_eq_ok, validateTy_named hb hv ht,
      validateTys_named hb hv hts, validateTys_named hb hv has, AliasTy.types,
      List.forall_mem_cons, List.forall_mem_append]
    rfl

theorem validateAtom_named {a a' : Atom} (h : a.Rel (c.NamedIn S b) a') :
    validateAtom visible a' = .ok () ↔ ∀ w ∈ a.types, Checks S bound w := by
  cases a <;> cases a' <;> first | exact h.elim | skip
  case traitImpl => exact validatePredicate_named hb hv h.1 h.2
  case equals =>
    rw [validateAtom, seq_eq_ok, validateTy_named hb hv h.1, validateTy_named hb hv h.2]
    simp [Atom.types, Checks]

end Parts

set_option linter.unusedSectionVars false

mutual

/-- A canonical goal validates when what it stands for has no const parameters as array lengths,
and binds types only. -/
theorem validateGoal_named {b : Scope} {visible : List AlphaEquivParam} (hb : Fits g v b c)
    (hv : Sees c b visible) : (bound : List GenericParam) → (k k' : Goal) →
      k.Rel Scope.enter (c.NamedIn S) c.Binds b k' →
      (validateGoal c.nextParam visible k' = .ok () ↔ k.Each (Checks S) TypeBinder bound)
  | bound, .exists gs k, d, h => by
      cases h with
      | @«exists» _ _ gs' _ k' hgs h =>
          obtain ⟨hok, hsees⟩ := validateBinder_binds hv hgs
          rw [validateGoal, bind_eq_ok, Goal.Each, ← hok]
          refine ⟨fun ⟨visible', hrun, hk⟩ => ⟨⟨visible', hrun⟩, ?_⟩, fun ⟨⟨visible', hrun⟩, hk⟩ =>
            ⟨visible', hrun, ?_⟩⟩
          · exact (validateGoal_named (hb.enter hgs) (hsees visible' hrun) _ k k' h).mp hk
          · exact (validateGoal_named (hb.enter hgs) (hsees visible' hrun) _ k k' h).mpr hk
  | bound, .implies as k, d, h => by
      cases h with
      | @implies _ _ as' _ k' has h =>
          rw [validateGoal, seq_eq_ok, validateAssumptions_named hb hv bound as as' has,
            validateGoal_named hb hv bound k k' h, Goal.Each]
  | bound, .all gs, d, h => by
      cases h with
      | @all _ _ gs' h => rw [validateGoal, validateGoals_named hb hv bound gs gs' h, Goal.Each]
  | bound, .atom a, d, h => by
      cases h with
      | atom h => rw [validateGoal, validateAtom_named hb hv h, Goal.Each]
  | bound, .maybe, d, h => by
      cases h
      rw [validateGoal, Goal.Each]
      exact iff_of_true rfl trivial

theorem validateAssumption_named {b : Scope} {visible : List AlphaEquivParam} (hb : Fits g v b c)
    (hv : Sees c b visible) : (bound : List GenericParam) → (k k' : Assumption) →
      k.Rel Scope.enter (c.NamedIn S) c.Binds b k' →
      (validateAssumption c.nextParam visible k' = .ok () ↔ k.Each (Checks S) TypeBinder bound)
  | bound, .traitImpl t r, d, h => by
      cases h with
      | traitImpl ht hr => rw [validateAssumption, validatePredicate_named hb hv ht hr, Assumption.Each]
  | bound, .normalizesTo a t, d, h => by
      cases h with
      | normalizesTo ha ht =>
          rw [validateAssumption, seq_eq_ok, validateAlias_named hb hv ha,
            validateTy_named hb hv ht, Assumption.Each]
          rfl
  | bound, .implies gs p, d, h => by
      cases h with
      | @implies _ _ gs' _ p' hgs hp =>
          rw [validateAssumption, seq_eq_ok, validateGoals_named hb hv bound gs gs' hgs,
            validatePredicate_named hb hv hp.selfTy hp.traitRef, Assumption.Each]
  | bound, .all as, d, h => by
      cases h with
      | @all _ _ as' h =>
          rw [validateAssumption, validateAssumptions_named hb hv bound as as' h, Assumption.Each]

theorem validateGoals_named {b : Scope} {visible : List AlphaEquivParam} (hb : Fits g v b c)
    (hv : Sees c b visible) : (bound : List GenericParam) → (ks ks' : List Goal) →
      RelGoals Scope.enter (c.NamedIn S) c.Binds b ks ks' →
      (validateGoals c.nextParam visible ks' = .ok () ↔ EachGoal (Checks S) TypeBinder bound ks)
  | bound, [], d, h => by
      cases h
      rw [validateGoals, EachGoal]
      exact iff_of_true rfl trivial
  | bound, k :: ks, d, h => by
      cases h with
      | @cons _ _ k' _ ks' h hs =>
          rw [validateGoals, seq_eq_ok, validateGoal_named hb hv bound k k' h,
            validateGoals_named hb hv bound ks ks' hs, EachGoal]

theorem validateAssumptions_named {b : Scope} {visible : List AlphaEquivParam} (hb : Fits g v b c)
    (hv : Sees c b visible) : (bound : List GenericParam) → (ks ks' : List Assumption) →
      RelAssumptions Scope.enter (c.NamedIn S) c.Binds b ks ks' →
      (validateAssumptions c.nextParam visible ks' = .ok () ↔
        EachAssumption (Checks S) TypeBinder bound ks)
  | bound, [], d, h => by
      cases h
      rw [validateAssumptions, EachAssumption]
      exact iff_of_true rfl trivial
  | bound, k :: ks, d, h => by
      cases h with
      | @cons _ _ k' _ ks' h hs =>
          rw [validateAssumptions, seq_eq_ok, validateAssumption_named hb hv bound k k' h,
            validateAssumptions_named hb hv bound ks ks' hs, EachAssumption]

end

theorem validateSolverGoal_named (hb : Fits g v .empty c) (hv : Sees c .empty visible)
    {k k' : SolverGoal} (h : k.Rel Scope.enter (c.NamedIn S) c.Binds .empty k') :
    validateSolverGoal c.nextParam visible k' = .ok () ↔ k.Each (Checks S) TypeBinder := by
  cases k <;> cases k' <;> first | exact h.elim | skip
  case prove => exact validateGoal_named hb hv [] _ _ h
  case normalize => exact validateAlias_named hb hv h

end ValidateGoal

/-! ### Validation of canonical inputs -/

section ValidateInputs

variable {g : VersionedEGraph} {v : Version} {c : Canonicalizer}

theorem sub_lt_sub_iff {b u w : Nat} (hu : b ≤ u) : u - b < w - b ↔ u < w := by omega

theorem validateInputs_spec (hc : c.WF g v) (data : GoalQueryData) {u : Universe}
    (hu : data.canonicalUniverse = u - c.base u) (hnext : data.nextResponseParam = c.nextParam)
    (is : List InputInfo) (visible : List AlphaEquivParam) (his : ∀ i ∈ is, i ∈ c.inputs)
    (hnd : (is.map InputInfo.param).Nodup) (hnew : ∀ i ∈ is, i.param ∉ visible) :
    ((∃ visible', validateInputs data (is.map fun i => ⟨i.param, i.kind, i.role,
        i.absoluteUniverse - c.base u, i.domain⟩) visible = .ok visible') ↔
      ∀ i ∈ is, i.absoluteUniverse ≤ u) ∧
    ∀ visible', validateInputs data (is.map fun i => ⟨i.param, i.kind, i.role,
        i.absoluteUniverse - c.base u, i.domain⟩) visible = .ok visible' →
      ∀ a, a ∈ visible' ↔ a ∈ visible ∨ a ∈ is.map InputInfo.param := by
  induction is generalizing visible with
  | nil =>
      refine ⟨iff_of_true ⟨visible, rfl⟩ (by simp), fun visible' h a => ?_⟩
      obtain rfl : visible = visible' := by simpa [validateInputs] using h
      simp
  | cons i is ih =>
      have hi := his i List.mem_cons_self
      have hi' := hnew i List.mem_cons_self
      rw [List.map_cons, List.nodup_cons] at hnd
      have hrest : ∀ j ∈ is, j.param ∉ i.param :: visible := by
        intro j hj hm
        rcases List.mem_cons.mp hm with he | hm
        · exact hnd.1 (he ▸ List.mem_map_of_mem hj)
        · exact hnew j (List.mem_cons_of_mem i hj) hm
      obtain ⟨hok, hmem⟩ := ih (i.param :: visible) (fun j hj => his j (List.mem_cons_of_mem i hj)) hnd.2 hrest
      have hkind := hc.kind i hi
      have hindex := hc.index i hi
      -- an input is rigid and of any domain, or existential and a type
      have hrigid : ¬(i.role = .rigidPlaceholder ∧ i.domain ≠ .any) := by
        rcases hc.input i hi with ⟨p, hp⟩ | ⟨x, hx⟩
        · rw [hp]
          exact fun h => h.2 rfl
        · rw [hx]
          exact fun h => by cases h.1
      have hexistential : ¬(i.role = .existentialInput ∧ i.kind ≠ .type) := by
        rcases hc.input i hi with ⟨p, hp⟩ | ⟨x, hx⟩
        · rw [hp]
          exact fun h => by cases h.1
        · rw [hx]
          exact fun h => h.2 rfl
      have hmeta : ¬(i.param.kind ≠ i.kind ∨ data.nextResponseParam ≤ i.param.index) := by
        rw [hnext]
        exact fun h => h.elim (· hkind) fun h => Nat.lt_irrefl _ (Nat.lt_of_lt_of_le hindex h)
      have hlt : data.canonicalUniverse < i.absoluteUniverse - c.base u ↔ u < i.absoluteUniverse := by
        rw [hu]
        exact sub_lt_sub_iff (base_le c u).1
      by_cases hle : i.absoluteUniverse ≤ u
      · have hnlt : ¬data.canonicalUniverse < i.absoluteUniverse - c.base u := fun h =>
          Nat.lt_irrefl _ (Nat.lt_of_lt_of_le (hlt.mp h) hle)
        rw [List.map_cons, validateInputs, if_neg hi', if_neg hrigid, if_neg hexistential,
          if_neg hnlt, if_neg hmeta, hok, List.forall_mem_cons]
        refine ⟨⟨fun h => ⟨hle, h⟩, And.right⟩, fun visible' h a => ?_⟩
        rw [hmem visible' h a, List.map_cons, List.mem_cons, List.mem_cons]
        tauto
      · have hlt := hlt.mpr (Nat.lt_of_not_le hle)
        rw [List.map_cons, validateInputs, if_neg hi', if_neg hrigid, if_neg hexistential,
          if_pos hlt]
        refine ⟨iff_of_false (by rintro ⟨_, h⟩; cases h) fun h => ?_, fun _ h => by cases h⟩
        exact hle (h i List.mem_cons_self)

/-- The query of a goal validates when its inputs are no newer than it, no resolved type has a
const parameter as an array length, and binders bind types. -/
theorem validateGoalQuery_queryOf {S : Store} {u : Universe} {complete : Bool}
    {as as' : List Assumption} {goal goal' : SolverGoal}
    (h : Canonicalized g v S as goal c (c.queryOf u complete as' goal').1) :
    validateGoalQuery (c.queryOf u complete as' goal').1 = .ok () ↔
      (∀ i ∈ c.inputs, i.absoluteUniverse ≤ u) ∧
        EachAssumption (Checks S) TypeBinder [] as ∧ goal.Each (Checks S) TypeBinder := by
  have hc := h.wf
  obtain ⟨hok, hmem⟩ := validateInputs_spec hc (c.queryOf u complete as' goal').1 rfl rfl c.inputs []
    (fun _ hi => hi) hc.nodup fun _ _ => List.not_mem_nil
  rw [validateGoalQuery, bind_eq_ok]
  have hsees : ∀ visible, validateInputs (c.queryOf u complete as' goal').1
      (c.queryOf u complete as' goal').1.canonicalVars [] = .ok visible → Sees c .empty visible := by
    intro visible hrun a
    rw [hmem visible hrun a]
    simp [Scope.empty]
  have hfits := Fits.empty hc
  have hrest : ∀ visible, Sees c .empty visible →
      ((do validateAssumptions c.nextParam visible as'
           validateSolverGoal c.nextParam visible goal') = .ok () ↔
        EachAssumption (Checks S) TypeBinder [] as ∧ goal.Each (Checks S) TypeBinder) := by
    intro visible hv
    have has := validateAssumptions_named hfits hv [] _ as' h.assumptions
    have hgoal : validateSolverGoal c.nextParam visible goal' = .ok () ↔ _ :=
      validateSolverGoal_named hfits hv h.goal
    rw [each_flatten, eachAssumption_spliced] at has
    rw [SolverGoal.each_spliced] at hgoal
    rw [seq_eq_ok, has, hgoal]
  constructor
  · rintro ⟨visible, hrun, hrun'⟩
    exact ⟨hok.mp ⟨visible, hrun⟩, (hrest visible (hsees visible hrun)).mp hrun'⟩
  · rintro ⟨hinputs, hgoal⟩
    obtain ⟨visible, hrun⟩ := hok.mpr hinputs
    exact ⟨visible, hrun, (hrest visible (hsees visible hrun)).mpr hgoal⟩

end ValidateInputs

/-! ### Well-scoped callers -/

section Scoped

variable (A : Caller)

/-- A resolved type names what is bound around it, and else nothing newer than the caller. -/
def Caller.Scopes (bound : List GenericParam) (t : Ty) : Prop :=
  t.All (fun s => ∀ p, s.placeholder = some p →
      p ∈ bound ∨ A.egraph.placeholderUniverse p ≤ A.currentUniverse)
    fun x => A.egraph.currentUniverse A.version x ≤ A.currentUniverse

/-- Everything in the resolved goal and environment is in scope. -/
def Caller.WellScoped (ρ : InferVarIndex → Ty) : Prop :=
  EachAssumption (fun bound t => A.Scopes bound (t.subst ρ)) (fun _ => True) [] A.assumptions ∧
    A.goal.Each (fun bound t => A.Scopes bound (t.subst ρ)) fun _ => True

/-- The validator's condition on the resolved goal and environment: no array length is a const
parameter, and binders bind types. -/
def Caller.Validates (ρ : InferVarIndex → Ty) : Prop :=
  EachAssumption (fun _ t => (t.subst ρ).NoConstParam) TypeBinder [] A.assumptions ∧
    A.goal.Each (fun _ t => (t.subst ρ).NoConstParam) TypeBinder

end Scoped

section Self

variable {P : List GenericParam → Ty → Prop} {B : List GenericParam → Prop}

theorem forall₂_self {α : Type} {Q : α → Prop} : ∀ {xs : List α}, (∀ x ∈ xs, Q x) →
    List.Forall₂ (fun x y => y = x ∧ Q x) xs xs
  | [], _ => .nil
  | x :: _, h => .cons ⟨rfl, h x List.mem_cons_self⟩
      (forall₂_self fun y hy => h y (List.mem_cons_of_mem x hy))

/-- The relation of a goal to itself that a condition on its types is. -/
abbrev SelfTy (P : List GenericParam → Ty → Prop) (bound : List GenericParam) (t u : Ty) : Prop :=
  u = t ∧ P bound t

theorem TraitRef.rel_self {bound : List GenericParam} {t : Ty} {r : TraitRef}
    (h : ∀ w ∈ t :: r.args, P bound w) : SelfTy P bound t t ∧ r.Rel (SelfTy P bound) r :=
  ⟨⟨rfl, h t List.mem_cons_self⟩, rfl, forall₂_self fun w hw => h w (List.mem_cons_of_mem t hw)⟩

theorem Atom.rel_self {bound : List GenericParam} : {a : Atom} → (∀ w ∈ a.types, P bound w) →
    a.Rel (SelfTy P bound) a
  | .traitImpl _ _, h => TraitRef.rel_self h
  | .equals l r, h => ⟨⟨rfl, h l List.mem_cons_self⟩,
      rfl, h r (List.mem_cons_of_mem l List.mem_cons_self)⟩

theorem AliasTy.rel_self {bound : List GenericParam} : {a : AliasTy} →
    (∀ w ∈ a.types, P bound w) → a.Rel (SelfTy P bound) a
  | .named _ _, h | .opaqueAlias _ _, h => ⟨rfl, forall₂_self h⟩
  | .associated _ t _ targs args, h => by
      obtain ⟨ht, h⟩ := List.forall_mem_cons.mp h
      obtain ⟨hts, has⟩ := List.forall_mem_append.mp h
      exact ⟨rfl, rfl, ⟨rfl, ht⟩, forall₂_self hts, forall₂_self has⟩

def enterBound (bound gs _gs' : List GenericParam) : List GenericParam := gs ++ bound

mutual

theorem Goal.rel_self : (bound : List GenericParam) → (g : Goal) → g.Each P B bound →
    g.Rel enterBound (SelfTy P) (fun _ gs gs' => gs' = gs) bound g
  | bound, .exists gs g, h => .exists rfl (g.rel_self _ (by rw [Goal.Each] at h; exact h.2))
  | bound, .implies as g, h => by
      rw [Goal.Each] at h
      exact .implies (relAssumptions_self bound as h.1) (g.rel_self bound h.2)
  | bound, .all gs, h => .all (relGoals_self bound gs (by rwa [Goal.Each] at h))
  | bound, .atom a, h => .atom (Atom.rel_self (by rwa [Goal.Each] at h))
  | bound, .maybe, _ => .maybe

theorem Assumption.rel_self : (bound : List GenericParam) → (a : Assumption) → a.Each P B bound →
    a.Rel enterBound (SelfTy P) (fun _ gs gs' => gs' = gs) bound a
  | bound, .traitImpl t r, h => by
      rw [Assumption.Each] at h
      exact .traitImpl (TraitRef.rel_self h).1 (TraitRef.rel_self h).2
  | bound, .normalizesTo a t, h => by
      rw [Assumption.Each] at h
      exact .normalizesTo (AliasTy.rel_self h.1) ⟨rfl, h.2⟩
  | bound, .implies gs p, h => by
      rw [Assumption.Each] at h
      exact .implies (relGoals_self bound gs h.1)
        ⟨(TraitRef.rel_self h.2).1, (TraitRef.rel_self h.2).2⟩
  | bound, .all as, h => .all (relAssumptions_self bound as (by rwa [Assumption.Each] at h))

theorem relGoals_self : (bound : List GenericParam) → (gs : List Goal) → EachGoal P B bound gs →
    RelGoals enterBound (SelfTy P) (fun _ gs gs' => gs' = gs) bound gs gs
  | bound, [], _ => .nil
  | bound, g :: gs, h => by
      rw [EachGoal] at h
      exact .cons (g.rel_self bound h.1) (relGoals_self bound gs h.2)

theorem relAssumptions_self : (bound : List GenericParam) → (as : List Assumption) →
    EachAssumption P B bound as →
    RelAssumptions enterBound (SelfTy P) (fun _ gs gs' => gs' = gs) bound as as
  | bound, [], _ => .nil
  | bound, a :: as, h => by
      rw [EachAssumption] at h
      exact .cons (a.rel_self bound h.1) (relAssumptions_self bound as h.2)

end

end Self

namespace Canonicalizer

open Grow

section InScope

variable {A : Caller} {c : Canonicalizer} {bound : List GenericParam}

/-- Two runs of one traversal, from which no input is newer than the caller. -/
def InScope (A : Caller) (c c' : Canonicalizer) : Prop :=
  c' = c ∧ ∀ i ∈ c.inputs, i.absoluteUniverse ≤ A.currentUniverse

/-- A deterministic traversal is in lockstep with itself if it keeps the inputs in scope. -/
theorem lockstep_inScope {α : Type} {f : Fold α}
    (h : ∀ c a c', (∀ i ∈ c.inputs, i.absoluteUniverse ≤ A.currentUniverse) → f c = some (a, c') →
      ∀ i ∈ c'.inputs, i.absoluteUniverse ≤ A.currentUniverse) : Lockstep (InScope A) f f := by
  rintro c _ ⟨rfl, hc⟩ a s b s' hrun hrun'
  rw [hrun] at hrun'
  obtain ⟨rfl, rfl⟩ := Prod.mk.inj (Option.some.inj hrun')
  exact ⟨rfl, rfl, h _ _ _ hc hrun⟩

theorem forall_mem_append_singleton {α : Type} {Q : α → Prop} {xs : List α} {x : α}
    (h : ∀ y ∈ xs, Q y) (hx : Q x) : ∀ y ∈ xs ++ [x], Q y :=
  List.forall_mem_append.mpr ⟨h, by simpa using hx⟩

theorem foldInferVar_inScope {x : InferVarIndex}
    (hx : A.egraph.currentUniverse A.version x ≤ A.currentUniverse) :
    Lockstep (InScope A) (foldInferVar A.egraph A.version x) (foldInferVar A.egraph A.version x) := by
  refine lockstep_inScope fun c a c' hc hrun => ?_
  cases hn : c.inferVars x with
  | some n =>
      rw [foldInferVar_named _ _ hn] at hrun
      obtain ⟨rfl, rfl⟩ := Prod.mk.inj (Option.some.inj hrun)
      exact hc
  | none =>
      rw [foldInferVar_new _ _ hn] at hrun
      obtain ⟨rfl, rfl⟩ := Prod.mk.inj (Option.some.inj hrun)
      exact forall_mem_append_singleton hc hx

/-- Parameters bound around a place are renamed there. -/
def RenamesBound (bound : List GenericParam) (b b' : Binders) : Prop :=
  b' = b ∧ ∀ p ∈ bound, b p ≠ none

theorem foldGenericParam_inScope {b : Binders} {p : GenericParam} (hb : ∀ p ∈ bound, b p ≠ none)
    (hp : p ∈ bound ∨ A.egraph.placeholderUniverse p ≤ A.currentUniverse) :
    Lockstep (InScope A) (foldGenericParam A.egraph b p) (foldGenericParam A.egraph b p) := by
  refine lockstep_inScope fun c a c' hc hrun => ?_
  cases hbp : b p with
  | some n =>
      rw [foldGenericParam_bound _ hbp] at hrun
      obtain ⟨rfl, rfl⟩ := Prod.mk.inj (Option.some.inj hrun)
      exact hc
  | none =>
      have hp := hp.resolve_left fun hm => hb p hm hbp
      cases hn : c.freeParams p with
      | some n =>
          rw [foldGenericParam_named _ hbp hn] at hrun
          obtain ⟨rfl, rfl⟩ := Prod.mk.inj (Option.some.inj hrun)
          exact hc
      | none =>
          rw [foldGenericParam_new _ hbp hn] at hrun
          obtain ⟨rfl, rfl⟩ := Prod.mk.inj (Option.some.inj hrun)
          exact forall_mem_append_singleton hc hp

theorem enter_ne_none {b : Binders} {gs ts : List GenericParam} (hl : ts.length = gs.length)
    {p : GenericParam} (hp : p ∈ gs ∨ b p ≠ none) : b.enter gs ts p ≠ none := by
  induction gs generalizing b ts with
  | nil => exact hp.resolve_left List.not_mem_nil
  | cons x gs ih =>
      obtain ⟨n, ts, rfl⟩ := List.exists_cons_of_length_eq_add_one hl
      have hstep : b.enter (x :: gs) (n :: ts) = Binders.enter (Function.update b x (some n)) gs ts := rfl
      rw [hstep]
      refine ih (Nat.succ.inj hl) ?_
      by_cases hx : p = x
      · subst hx
        exact .inr (by simp)
      · rw [Function.update_of_ne hx]
        exact hp.imp_left fun hm => (List.mem_cons.mp hm).resolve_left hx

/-- A resolved type in scope is matched with itself. -/
theorem matched_self {t : Ty} (h : A.Scopes bound t) :
    t.Matched (fun x y => y = x ∧ A.egraph.currentUniverse A.version x ≤ A.currentUniverse)
      (fun p q => q = p ∧ (p ∈ bound ∨ A.egraph.placeholderUniverse p ≤ A.currentUniverse)) t := by
  induction t using Ty.induction with
  | step t ih =>
      rcases t.cases_leaf with ht | ⟨x, rfl⟩ | ⟨p, rfl⟩
      · obtain ⟨hs, hc⟩ := (Ty.all_iff ht.rigid).mp h
        refine (Ty.folded_inner ht).mpr ⟨ht, ?_, ?_⟩
        · refine Skeleton.rel_iff.mpr ?_
          by_cases harr : ∃ k, (decompose t).skeleton = .array k
          · obtain ⟨k, hk⟩ := harr
            refine .inl ⟨k, k, hk, hk, ?_⟩
            cases k with
            | param p => exact ⟨rfl, hs p (by rw [hk]; rfl)⟩
            | literal n => rfl
            | other s => rfl
          · exact .inr ⟨fun k hk => harr ⟨k, hk⟩, rfl⟩
        · exact List.forall₂_same.mpr fun c hm => ih c hm (hc c hm)
      · rw [Caller.Scopes, Ty.all_inferVar] at h
        exact .var ⟨x, rfl, rfl, h⟩
      · have hp := ((Ty.all_iff (t := .param p) trivial).mp h).1
        exact .param ⟨p, rfl, rfl, hp p rfl⟩

section Run

variable {S : Store} (hA : VersionedEGraph.Represents A.egraph A.version S)
include hA

theorem ty_inScope (fuel : Nat) (bound : List GenericParam) (b b' : Binders)
    (hb : RenamesBound bound b b') (t u : Ty)
    (h : SelfTy (fun bound t => A.Scopes bound (t.subst S.resolve)) bound t u) :
    Lockstep (InScope A) ((walker A.egraph A.version fuel).ty b t)
      ((walker A.egraph A.version fuel).ty b' u) := by
  obtain ⟨rfl, hb⟩ := hb
  obtain ⟨rfl, ht⟩ := h
  refine foldTy_lockstep hA hA (fun x y hxy => ?_) (fun p q hpq => ?_) fuel _ _ (matched_self ht)
  · obtain ⟨rfl, hx⟩ := hxy
    exact foldInferVar_inScope hx
  · obtain ⟨rfl, hp⟩ := hpq
    exact foldGenericParam_inScope hb hp

omit hA in
theorem rename_inScope (fuel : Nat) (gs : List GenericParam) :
    Lockstep (InScope A) (gs.mapM (walker A.egraph A.version fuel).rename)
      (gs.mapM (walker A.egraph A.version fuel).rename) := by
  refine lockstep_inScope fun c a c' hc hrun => ?_
  rw [rename_mapM] at hrun
  obtain ⟨rfl, rfl⟩ := Prod.mk.inj (Option.some.inj hrun)
  exact hc

/-- No input of a well-scoped caller's query is newer than the caller. -/
theorem inputs_inScope (hs : A.WellScoped S.resolve) {fuel : Nat} {as : List Assumption}
    {c₁ c₂ : Canonicalizer} {goal : SolverGoal}
    (has : walkAssumptions (walker A.egraph A.version fuel) (fun _ => none)
      (Assumption.flatten (splicedAssumptions A.assumptions)) new = some (as, c₁))
    (hgoal : foldSolverGoal A.egraph A.version fuel A.goal.spliced c₁ = some (goal, c₂)) :
    ∀ i ∈ c₂.inputs, i.absoluteUniverse ≤ A.currentUniverse := by
  obtain ⟨hsas, hsgoal⟩ := hs
  have hempty : RenamesBound [] (fun _ => none) fun _ => none :=
    ⟨rfl, fun _ hp => absurd hp List.not_mem_nil⟩
  have hrename : ∀ _ gs gs' : List GenericParam, gs' = gs →
      Lockstep (InScope A) (gs.mapM (walker A.egraph A.version fuel).rename)
        (gs'.mapM (walker A.egraph A.version fuel).rename) := by
    intro _ gs gs' h
    rw [h]
    exact rename_inScope fuel gs
  have henter : ∀ bound b b' gs gs' ts, RenamesBound bound b b' → gs' = gs →
      ts.length = gs.length → RenamesBound (enterBound bound gs gs') (b.enter gs ts) (b'.enter gs' ts) := by
    rintro bound b _ gs _ ts ⟨rfl, hb⟩ rfl hl
    exact ⟨rfl, fun p hp => enter_ne_none hl ((List.mem_append.mp hp).imp_right (hb p))⟩
  have hwalk := walkAssumptions_lockstep (ty_inScope hA fuel) hrename henter hempty _ _
    (relAssumptions_self [] _ (each_flatten.mpr ((eachAssumption_spliced [] _).mpr hsas)))
  obtain ⟨-, -, hc₁⟩ := hwalk new new ⟨rfl, by simp [new]⟩ _ _ _ _ has has
  have hsgoal := (SolverGoal.each_spliced A.goal).mpr hsgoal
  have hfold : Lockstep (InScope A) (foldSolverGoal A.egraph A.version fuel A.goal.spliced)
      (foldSolverGoal A.egraph A.version fuel A.goal.spliced) := by
    revert hsgoal
    cases A.goal.spliced with
    | prove g =>
        intro hg
        exact (g.walk_lockstep (ty_inScope hA fuel) hrename henter hempty g
          (g.rel_self [] hg)).bind fun _ => .pure _
    | normalize a =>
        intro ha
        exact (AliasTy.mapM_lockstep (ty_inScope hA fuel [] _ _ hempty)
          (AliasTy.rel_self ha)).bind fun _ => .pure _
  obtain ⟨-, -, hc₂⟩ := hfold c₁ c₁ ⟨rfl, hc₁⟩ _ _ _ _ hgoal hgoal
  exact hc₂

end Run

end InScope

end Canonicalizer

/-! ### Exactly when canonical queries validate -/

open VersionedEGraph

section Main

variable [HashOrder] {A : Caller} {ρ : InferVarIndex → Ty}

/-- The query of a well-scoped caller validates exactly when no array length in its resolved
goal and environment is a const parameter, and their binders bind types. -/
theorem validateGoalQuery_canonical (hA : Reachable Bound.IsExact A.egraph)
    (hl : A.egraph.versions.isLive A.version = true) (hρ : A.egraph.Resolution A.version ρ)
    (hs : A.WellScoped ρ) :
    ∃ N, ∀ n ≥ N, ∃ query, A.query n = some query ∧
      (validateGoalQuery query.1 = .ok () ↔ A.Validates ρ) := by
  obtain ⟨S, hS⟩ := (hA.modelled fun _ => id).store A.version hl
  obtain rfl := hρ.unique hS.resolution
  obtain ⟨N, hN⟩ := Caller.query_ends hS
  refine ⟨N, fun n hn => ?_⟩
  obtain ⟨query, hq⟩ := hN n hn
  refine ⟨query, hq, ?_⟩
  obtain ⟨as, c₁, goal, c₂, has, hgoal, hrun⟩ := Canonicalizer.canonicalize_run hq
  have hinputs := Canonicalizer.inputs_inScope hS hs has hgoal
  rw [hrun, validateGoalQuery_queryOf (Canonicalizer.canonicalized hS _ _ has hgoal)]
  exact ⟨And.right, fun h => ⟨hinputs, h⟩⟩

end Main

/-- A caller that asks whether arrays whose length is a const parameter implement a trait, as
the body of a function with that parameter does. -/
def constLength : Caller where
  egraph := .new
  version := 0
  currentUniverse := 0
  assumptionsComplete := true
  assumptions := []
  goal := .prove (.atom (.traitImpl (.array (.uint .u8) (.param (.ast ⟨.const, ⟨0⟩, 0⟩)))
    ⟨.loc 0, []⟩))

theorem constLength_resolution : constLength.egraph.Resolution 0 .inferVar := by
  intro x
  refine ⟨1, fun m hm => ?_⟩
  obtain ⟨m, rfl⟩ := Nat.exists_eq_add_of_le' hm
  rfl

theorem constLength_wellScoped : constLength.WellScoped .inferVar := by
  refine ⟨trivial, fun t ht => ?_⟩
  obtain rfl : t = .array (.uint .u8) (.param (.ast ⟨.const, ⟨0⟩, 0⟩)) := List.mem_singleton.mp ht
  rw [Ty.subst, Ty.foldLeaves, Ty.foldLeaves, Caller.Scopes]
  refine (Ty.all_iff (t := .array _ _) trivial).mpr ⟨fun _ _ => .inr (Nat.zero_le _), fun u hu => ?_⟩
  obtain rfl : u = .uint .u8 := List.mem_singleton.mp hu
  exact (Ty.all_iff (t := .uint _) trivial).mpr ⟨by rintro _ ⟨⟩, by rintro _ ⟨⟩⟩

theorem constLength_validates_iff :
    ∃ N, ∀ n ≥ N, ∃ query, constLength.query n = some query ∧
      (validateGoalQuery query.1 = .ok () ↔ constLength.Validates .inferVar) :=
  validateGoalQuery_canonical .new (by decide) constLength_resolution constLength_wellScoped

/-- The validator turns away a const parameter in scope: its second arm for arrays catches what
the first one, which checks visibility, lets through. -/
theorem constLength_rejected :
    VersionedEGraph.Reachable Bound.IsExact constLength.egraph ∧
      constLength.WellScoped .inferVar ∧
      (constLength.query 2).map (fun query => validateGoalQuery query.1) =
        some (.error "canonical query contains a noncanonical const parameter") :=
  ⟨.new, constLength_wellScoped, by decide⟩

end Sage
