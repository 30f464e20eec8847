import Sage.Solve.Boundary
import Sage.Solve.Validation

/-!
# Solve — instances of answers

An answer is a statement about the parameters of its query and the variables it binds.  An
instance replaces the type parameters; array lengths name parameters too, and the copier of
`boundary.rs` leaves those alone.

* `Ty.instantiate` — replacing canonical type parameters, with `Ty.instantiate_instantiate`.
* `Ty.Over` — every parameter of a type, array lengths included, satisfies a condition.
* `Goal.mapTy`, `Goal.binders` — the types and the binders of a goal.
* `Goal.copy_run`, `Goal.copy_of_unbound` — what the copier numbers, and what it does to a goal
  without binders.
-/

namespace Sage

open Terms

/-! ### Types -/

/-- Replace the canonical type parameters of a type. -/
@[grind =] def Ty.instantiate (σ : AlphaEquivParam → Ty) : Ty → Ty :=
  Ty.foldLeaves .inferVar
    (fun
      | .alphaEquiv p => σ p
      | p => .param p) id

/-- A canonical parameter, as a type. -/
def AlphaEquivParam.ty (p : AlphaEquivParam) : Ty := .param (.alphaEquiv p)

/-- Type parameters of the skeleton satisfy `P`, parameters that are array lengths `L`. -/
@[grind =] def Skeleton.Over (P L : AlphaEquivParam → Prop) : Skeleton → Prop
  | .param (.alphaEquiv p) => P p
  | .param _ => False
  | .array (.param (.alphaEquiv p)) => L p
  | .array (.param _) => False
  | _ => True

namespace Skeleton

variable {P Q L K : AlphaEquivParam → Prop} {s : Skeleton}

theorem Over.imp (h : s.Over P L) (hP : ∀ q, P q → Q q) (hL : ∀ q, L q → K q) : s.Over Q K := by
  cases s with
  | param q => cases q <;> first | exact hP _ h | exact h
  | array c =>
      cases c with
      | param q => cases q <;> first | exact hL _ h | exact h
      | literal _ | other _ => trivial
  | _ => trivial

theorem Over.and (h : s.Over P L) (h' : s.Over Q K) :
    s.Over (fun q => P q ∧ Q q) fun q => L q ∧ K q := by
  cases s with
  | param q => cases q <;> first | exact ⟨h, h'⟩ | exact h
  | array c =>
      cases c with
      | param q => cases q <;> first | exact ⟨h, h'⟩ | exact h
      | literal _ | other _ => trivial
  | _ => trivial

/-- The head of a compound type is no parameter. -/
theorem Over.of_inner {t : Ty} (ht : t.Inner) (h : (decompose t).skeleton.Over P L) :
    (decompose t).skeleton.Over Q L := by
  rcases t with _ | _ | _ | _ | _ | _ | _ | (_ | _ | _) | _ | _ | _ | ⟨_, _ | q | _⟩ | _ | _ | _ | _ | _
  case array.param => cases q <;> exact h
  case param | inferVar => exact ht.elim
  all_goals trivial

end Skeleton

namespace Ty

variable {σ τ : AlphaEquivParam → Ty} {t u : Ty} {p : AlphaEquivParam}

@[simp] theorem instantiate_param : p.ty.instantiate σ = σ p := by
  simp [AlphaEquivParam.ty, instantiate, foldLeaves]

@[simp] theorem instantiate_inferVar (x : InferVarIndex) :
    (inferVar x).instantiate σ = .inferVar x := by
  simp [instantiate, foldLeaves]

/-- A type is compound, or a variable, or a parameter of its own kind. -/
theorem cases_param (t : Ty) : t.Inner ∨ (∃ x, t = .inferVar x) ∨ (∃ p : AlphaEquivParam, t = p.ty) ∨
    ∃ p, t = .param p ∧ ∀ a, p ≠ .alphaEquiv a := by
  rcases t.cases_leaf with h | h | ⟨p, rfl⟩
  · exact .inl h
  · exact .inr (.inl h)
  · cases p with
    | alphaEquiv a => exact .inr (.inr (.inl ⟨a, rfl⟩))
    | ast _ | ext _ => exact .inr (.inr (.inr ⟨_, rfl, nofun⟩))

theorem instantiate_foreign {q : GenericParam} (h : ∀ a, q ≠ .alphaEquiv a) :
    (Ty.param q).instantiate σ = .param q := by
  cases q with
  | alphaEquiv a => exact absurd rfl (h a)
  | ast _ | ext _ => simp [instantiate, foldLeaves]

/-- Instantiation keeps the head of a compound type. -/
theorem decompose_instantiate (h : t.Inner) (σ : AlphaEquivParam → Ty) :
    decompose (t.instantiate σ) =
      ⟨(decompose t).skeleton, (decompose t).children.map (instantiate σ)⟩ := by
  rcases t with _ | _ | _ | _ | _ | _ | _ | (_ | _ | _) | _ | _ | _ | _ | _ | _ | _ | _ | _ <;>
    first | exact h.elim | simp [decompose, leaf, instantiate, foldLeaves, AliasTy.foldLeaves]

theorem inner_of_skeleton (h : t.Inner) (hs : (decompose u).skeleton = (decompose t).skeleton) :
    u.Inner := by
  rcases u.cases_leaf with hu | ⟨x, rfl⟩ | ⟨q, rfl⟩
  · exact hu
  all_goals
    rcases t with _ | _ | _ | _ | _ | _ | _ | (_ | _ | _) | _ | _ | _ | _ | _ | _ | _ | _ | _ <;>
      first
      | exact h.elim
      | simp [decompose, leaf] at hs

theorem Inner.instantiate (h : t.Inner) (σ : AlphaEquivParam → Ty) : (t.instantiate σ).Inner :=
  inner_of_skeleton h (by rw [decompose_instantiate h])

/-- Two compound types with equal heads and children are equal. -/
theorem instantiate_eq_of_children (h : t.Inner)
    (hs : (decompose t).skeleton = (decompose u).skeleton)
    (hc : (decompose t).children.map (instantiate σ) = (decompose u).children) :
    t.instantiate σ = u :=
  decompose_injective (by rw [decompose_instantiate h]; exact hs)
    (by rw [decompose_instantiate h]; exact hc)

theorem instantiate_instantiate (σ τ : AlphaEquivParam → Ty) (t : Ty) :
    (t.instantiate σ).instantiate τ = t.instantiate fun p => (σ p).instantiate τ := by
  induction t using Ty.induction with
  | step t ih =>
      rcases t.cases_param with h | ⟨x, rfl⟩ | ⟨p, rfl⟩ | ⟨q, rfl, hq⟩
      · refine decompose_injective ?_ ?_
        · rw [decompose_instantiate (h.instantiate σ), decompose_instantiate h,
            decompose_instantiate h]
        · rw [decompose_instantiate (h.instantiate σ), decompose_instantiate h,
            decompose_instantiate h, List.map_map]
          exact List.map_congr_left ih
      · simp
      · simp
      · simp [instantiate_foreign hq]

variable {P Q : AlphaEquivParam → Prop} {L K : AlphaEquivParam → Prop}

/-- All parameters of the type are canonical, those that stand for types satisfy `P` and those
that stand for array lengths `L`; the type has no inference variables. -/
@[grind =] def Over (P L : AlphaEquivParam → Prop) (t : Ty) : Prop :=
  t.All (Skeleton.Over P L) fun _ => False

theorem over_inner (h : t.Inner) : t.Over P L ↔
    (decompose t).skeleton.Over P L ∧ ∀ c ∈ (decompose t).children, c.Over P L :=
  all_iff h.rigid

@[simp] theorem over_param : p.ty.Over P L ↔ P p := by
  rw [Over, all_iff (by trivial)]
  simp [AlphaEquivParam.ty, decompose, leaf, Skeleton.Over]

@[simp] theorem not_over_inferVar (x : InferVarIndex) : ¬(inferVar x).Over P L := by
  simp [Over]

theorem not_over_foreign {q : GenericParam} (hq : ∀ a, q ≠ .alphaEquiv a) :
    ¬(Ty.param q).Over P L := by
  rw [Over, all_iff (by trivial)]
  cases q with
  | alphaEquiv a => exact absurd rfl (hq a)
  | ast _ | ext _ => simp [decompose, leaf, Skeleton.Over]

theorem Over.imp (h : t.Over P L) (hP : ∀ q, P q → Q q) (hL : ∀ q, L q → K q) : t.Over Q K :=
  All.imp h (fun _ hs => hs.imp hP hL) fun _ _ => id

theorem Over.and (h : t.Over P L) (h' : t.Over Q K) :
    t.Over (fun q => P q ∧ Q q) fun q => L q ∧ K q :=
  (Term.All.and h h').imp (fun _ hs => hs.1.and hs.2) fun _ _ => id

/-- An instance is made of what replaces the parameters of the type, and of its array lengths. -/
theorem Over.instantiate (h : t.Over P L) (hσ : ∀ p, P p → (σ p).Over Q L) :
    (t.instantiate σ).Over Q L := by
  induction t using Ty.induction with
  | step t ih =>
      rcases t.cases_param with ht | ⟨x, rfl⟩ | ⟨p, rfl⟩ | ⟨q, rfl, hq⟩
      · rw [over_inner (ht.instantiate σ), decompose_instantiate ht]
        obtain ⟨hs, hc⟩ := (over_inner ht).mp h
        refine ⟨Skeleton.Over.of_inner ht hs, fun c hm => ?_⟩
        obtain ⟨b, hb, rfl⟩ := List.mem_map.mp hm
        exact ih b hb (hc b hb)
      · exact absurd h (not_over_inferVar x)
      · rw [instantiate_param]
        exact hσ p (over_param.mp h)
      · exact absurd h (not_over_foreign hq)

theorem instantiate_congr (h : t.Over P L) (hσ : ∀ p, P p → σ p = τ p) :
    t.instantiate σ = t.instantiate τ := by
  induction t using Ty.induction with
  | step t ih =>
      rcases t.cases_param with ht | ⟨x, rfl⟩ | ⟨p, rfl⟩ | ⟨q, rfl, hq⟩
      · refine instantiate_eq_of_children ht ?_ ?_
        · rw [decompose_instantiate ht]
        · rw [decompose_instantiate ht]
          exact List.map_congr_left fun c hc => ih c hc (((over_inner ht).mp h).2 c hc)
      · exact absurd h (not_over_inferVar x)
      · rw [instantiate_param, instantiate_param]
        exact hσ p (over_param.mp h)
      · exact absurd h (not_over_foreign hq)

theorem instantiate_eq_self (h : t.Over P L) (hσ : ∀ p, P p → σ p = p.ty) :
    t.instantiate σ = t := by
  induction t using Ty.induction with
  | step t ih =>
      rcases t.cases_param with ht | ⟨x, rfl⟩ | ⟨p, rfl⟩ | ⟨q, rfl, hq⟩
      · refine instantiate_eq_of_children ht rfl ?_
        conv_rhs => rw [← List.map_id (decompose t).children]
        exact List.map_congr_left fun c hc => ih c hc (((over_inner ht).mp h).2 c hc)
      · simp
      · rw [instantiate_param]
        exact hσ p (over_param.mp h)
      · exact instantiate_foreign hq

end Ty

/-! ### The copier on types -/

/-- What a mapping of the copier does to canonical parameters. -/
@[grind =]
def TypeMapping.apply (δ : TypeMapping) (p : AlphaEquivParam) : Ty := (δ (.alphaEquiv p)).getD p.ty

theorem IrCopier.copyTy_eq {δ : TypeMapping} (h : ∀ q, (∀ a, q ≠ .alphaEquiv a) → δ q = none) :
    copyTy δ (fun _ => none) = Ty.instantiate δ.apply := by
  have hfold : ∀ {onParam onParam' : GenericParam → Ty} {onConst onConst' : Const → Const},
      (∀ p, onParam p = onParam' p) → (∀ c, onConst c = onConst' c) →
      Ty.foldLeaves .inferVar onParam onConst = Ty.foldLeaves .inferVar onParam' onConst' :=
    fun hp hc => by rw [funext hp, funext hc]
  refine hfold (fun p => ?_) fun c => ?_
  · cases p with
    | alphaEquiv a => rfl
    | ast _ | ext _ =>
        rw [h _ fun _ => by simp]
        rfl
  · cases c <;> rfl

/-! ### The types and the binders of a goal -/

section Map

variable (f : Ty → Ty)

@[grind =] def TraitRef.mapTy (r : TraitRef) : TraitRef := ⟨r.traitSym, r.args.map f⟩

@[grind =]
def WherePredicate.mapTy (p : WherePredicate) : WherePredicate := ⟨f p.selfTy, p.traitRef.mapTy f⟩

@[grind =] def Atom.mapTy : Atom → Atom
  | .traitImpl selfTy traitRef => .traitImpl (f selfTy) (traitRef.mapTy f)
  | .equals left right => .equals (f left) (f right)

@[grind =] def AliasTy.mapTy : AliasTy → AliasTy
  | .named sym args => .named sym (args.map f)
  | .associated associatedTy selfTy traitSym traitArgs args =>
      .associated associatedTy (f selfTy) traitSym (traitArgs.map f) (args.map f)
  | .opaqueAlias sym args => .opaqueAlias sym (args.map f)

mutual

/-- The goal with `f` applied to its types. -/
@[grind =] def Goal.mapTy : Goal → Goal
  | .exists gs g => .exists gs (Goal.mapTy g)
  | .implies as g => .implies (mapTyAssumptions as) (Goal.mapTy g)
  | .all gs => .all (mapTyGoals gs)
  | .atom a => .atom (a.mapTy f)
  | .maybe => .maybe

@[grind =] def Assumption.mapTy : Assumption → Assumption
  | .traitImpl t r => .traitImpl (f t) (r.mapTy f)
  | .normalizesTo a t => .normalizesTo (a.mapTy f) (f t)
  | .implies gs p => .implies (mapTyGoals gs) (p.mapTy f)
  | .all as => .all (mapTyAssumptions as)

@[grind =] def mapTyGoals : List Goal → List Goal
  | [] => []
  | g :: gs => Goal.mapTy g :: mapTyGoals gs

@[grind =] def mapTyAssumptions : List Assumption → List Assumption
  | [] => []
  | a :: as => Assumption.mapTy a :: mapTyAssumptions as

end

end Map

mutual

/-- The parameters of the binders of a goal, in the order a traversal meets them. -/
@[grind =] def Goal.binders : Goal → List GenericParam
  | .exists gs g => gs ++ Goal.binders g
  | .implies as g => bindersAssumptions as ++ Goal.binders g
  | .all gs => bindersGoals gs
  | .atom _ => []
  | .maybe => []

def Assumption.binders : Assumption → List GenericParam
  | .traitImpl _ _ => []
  | .normalizesTo _ _ => []
  | .implies gs _ => bindersGoals gs
  | .all as => bindersAssumptions as

@[grind =] def bindersGoals : List Goal → List GenericParam
  | [] => []
  | g :: gs => Goal.binders g ++ bindersGoals gs

@[grind =] def bindersAssumptions : List Assumption → List GenericParam
  | [] => []
  | a :: as => Assumption.binders a ++ bindersAssumptions as

end

theorem bindersGoals_eq (gs : List Goal) : bindersGoals gs = gs.flatMap Goal.binders := by
  induction gs with
  | nil => rfl
  | cons g gs ih => simp [bindersGoals, ih]

theorem bindersAssumptions_eq (as : List Assumption) :
    bindersAssumptions as = as.flatMap Assumption.binders := by
  induction as with
  | nil => rfl
  | cons a as ih => simp [bindersAssumptions, ih]

mutual

/-- Splicing keeps the binders. -/
theorem Goal.binders_conjuncts : (g : Goal) → g.conjuncts.flatMap Goal.binders = g.binders
  | .all gs => by
      simpa [Goal.conjuncts, Goal.binders] using bindersGoals_conjuncts gs
  | .exists _ _ | .implies _ _ | .atom _ | .maybe => by simp [Goal.conjuncts]

theorem bindersGoals_conjuncts : (gs : List Goal) →
    (gs.flatMap Goal.conjuncts).flatMap Goal.binders = bindersGoals gs
  | [] => rfl
  | g :: gs => by
      rw [List.flatMap_cons, List.flatMap_append, g.binders_conjuncts, bindersGoals_conjuncts gs,
        bindersGoals]

end

mutual

theorem Assumption.binders_facts : (a : Assumption) →
    a.facts.flatMap Assumption.binders = a.binders
  | .all as => by
      simpa [Assumption.facts, Assumption.binders] using bindersAssumptions_facts as
  | .traitImpl _ _ | .normalizesTo _ _ | .implies _ _ => by simp [Assumption.facts]

theorem bindersAssumptions_facts : (as : List Assumption) →
    (as.flatMap Assumption.facts).flatMap Assumption.binders = bindersAssumptions as
  | [] => rfl
  | a :: as => by
      rw [List.flatMap_cons, List.flatMap_append, a.binders_facts, bindersAssumptions_facts as,
        bindersAssumptions]

end

theorem binders_mkAll (gs : List Goal) : (Goal.mkAll gs).binders = bindersGoals gs := by
  rw [Goal.mkAll, Goal.binders, bindersGoals_eq, Goal.conjunctsList_eq_flatMap,
    bindersGoals_conjuncts]

theorem binders_flatten (as : List Assumption) :
    bindersAssumptions (Assumption.flatten as) = bindersAssumptions as := by
  rw [Assumption.flatten_eq, bindersAssumptions_eq, bindersAssumptions_facts]

/-! #### Applying functions to types -/

theorem mapTyGoals_eq (f : Ty → Ty) (gs : List Goal) : mapTyGoals f gs = gs.map (Goal.mapTy f) := by
  induction gs with
  | nil => rfl
  | cons g gs ih => simp [mapTyGoals, ih]

theorem mapTyAssumptions_eq (f : Ty → Ty) (as : List Assumption) :
    mapTyAssumptions f as = as.map (Assumption.mapTy f) := by
  induction as with
  | nil => rfl
  | cons a as ih => simp [mapTyAssumptions, ih]

section Laws

variable {f h : Ty → Ty} {P : List GenericParam → Ty → Prop} {B : List GenericParam → Prop}

theorem TraitRef.mapTy_congr {r : TraitRef} (hf : ∀ t ∈ r.args, f t = h t) :
    r.mapTy f = r.mapTy h := by
  rw [mapTy, mapTy, List.map_congr_left hf]

theorem Atom.mapTy_congr {a : Atom} (hf : ∀ t ∈ a.types, f t = h t) : a.mapTy f = a.mapTy h := by
  cases a with
  | traitImpl t r =>
      obtain ⟨ht, hr⟩ := List.forall_mem_cons.mp hf
      rw [mapTy, mapTy, ht, TraitRef.mapTy_congr hr]
  | equals t u => simp_all [mapTy, types]

theorem Atom.types_mapTy (a : Atom) : (a.mapTy f).types = a.types.map f := by
  cases a <;> simp [mapTy, types, TraitRef.mapTy]

theorem AliasTy.mapTy_congr {a : AliasTy} (hf : ∀ t ∈ a.types, f t = h t) :
    a.mapTy f = a.mapTy h := by
  cases a with
  | named _ ts | opaqueAlias _ ts =>
      have hts : ts.map f = ts.map h := List.map_congr_left hf
      rw [mapTy, mapTy, hts]
  | associated _ t _ ts us =>
      obtain ⟨ht, hts⟩ := List.forall_mem_cons.mp hf
      obtain ⟨hts, hus⟩ := List.forall_mem_append.mp hts
      rw [mapTy, mapTy, ht, List.map_congr_left hts, List.map_congr_left hus]

mutual

/-- Functions that agree on the types of a goal without binders change it alike. -/
theorem Goal.mapTy_congr (hf : ∀ t, P [] t → f t = h t) : (g : Goal) → g.binders = [] →
    g.Each P B [] → g.mapTy f = g.mapTy h
  | .exists gs g, hb, he => by
      obtain ⟨rfl, hb⟩ := List.append_eq_nil_iff.mp hb
      rw [Goal.mapTy, Goal.mapTy, Goal.mapTy_congr hf g hb he.2]
  | .implies as g, hb, he => by
      obtain ⟨has, hb⟩ := List.append_eq_nil_iff.mp hb
      rw [Goal.mapTy, Goal.mapTy, mapTyAssumptions_congr hf as has he.1,
        Goal.mapTy_congr hf g hb he.2]
  | .all gs, hb, he => by rw [Goal.mapTy, Goal.mapTy, mapTyGoals_congr hf gs hb he]
  | .atom a, _, he => by
      rw [Goal.mapTy, Goal.mapTy, Atom.mapTy_congr fun t ht => hf t (he t ht)]
  | .maybe, _, _ => rfl

theorem Assumption.mapTy_congr (hf : ∀ t, P [] t → f t = h t) : (a : Assumption) →
    a.binders = [] → a.Each P B [] → a.mapTy f = a.mapTy h
  | .traitImpl t r, _, he => by
      obtain ⟨ht, hr⟩ := List.forall_mem_cons.mp he
      rw [Assumption.mapTy, Assumption.mapTy, hf t ht,
        TraitRef.mapTy_congr fun u hu => hf u (hr u hu)]
  | .normalizesTo a t, _, he => by
      rw [Assumption.mapTy, Assumption.mapTy, hf t he.2,
        AliasTy.mapTy_congr fun u hu => hf u (he.1 u hu)]
  | .implies gs p, hb, he => by
      obtain ⟨ht, hr⟩ := List.forall_mem_cons.mp he.2
      rw [Assumption.mapTy, Assumption.mapTy, mapTyGoals_congr hf gs hb he.1,
        WherePredicate.mapTy, WherePredicate.mapTy, hf _ ht,
        TraitRef.mapTy_congr fun u hu => hf u (hr u hu)]
  | .all as, hb, he => by
      rw [Assumption.mapTy, Assumption.mapTy, mapTyAssumptions_congr hf as hb he]

theorem mapTyGoals_congr (hf : ∀ t, P [] t → f t = h t) : (gs : List Goal) →
    bindersGoals gs = [] → EachGoal P B [] gs → mapTyGoals f gs = mapTyGoals h gs
  | [], _, _ => rfl
  | g :: gs, hb, he => by
      obtain ⟨hg, hgs⟩ := List.append_eq_nil_iff.mp hb
      rw [mapTyGoals, mapTyGoals, Goal.mapTy_congr hf g hg he.1, mapTyGoals_congr hf gs hgs he.2]

theorem mapTyAssumptions_congr (hf : ∀ t, P [] t → f t = h t) : (as : List Assumption) →
    bindersAssumptions as = [] → EachAssumption P B [] as →
    mapTyAssumptions f as = mapTyAssumptions h as
  | [], _, _ => rfl
  | a :: as, hb, he => by
      obtain ⟨ha, has⟩ := List.append_eq_nil_iff.mp hb
      rw [mapTyAssumptions, mapTyAssumptions, Assumption.mapTy_congr hf a ha he.1,
        mapTyAssumptions_congr hf as has he.2]

end

theorem TraitRef.mapTy_id (r : TraitRef) : r.mapTy id = r := by
  rw [mapTy, List.map_id]

mutual

theorem Goal.mapTy_id : (g : Goal) → g.mapTy id = g
  | .exists gs g => by rw [Goal.mapTy, g.mapTy_id]
  | .implies as g => by rw [Goal.mapTy, mapTyAssumptions_id, g.mapTy_id]
  | .all gs => by rw [Goal.mapTy, mapTyGoals_id]
  | .atom a => by cases a <;> simp [Goal.mapTy, Atom.mapTy, TraitRef.mapTy_id]
  | .maybe => rfl

theorem Assumption.mapTy_id : (a : Assumption) → a.mapTy id = a
  | .traitImpl t r => by rw [Assumption.mapTy, TraitRef.mapTy_id, id]
  | .normalizesTo a t => by cases a <;> simp [Assumption.mapTy, AliasTy.mapTy]
  | .implies gs p => by
      rw [Assumption.mapTy, mapTyGoals_id, WherePredicate.mapTy, TraitRef.mapTy_id, id]
  | .all as => by rw [Assumption.mapTy, mapTyAssumptions_id]

theorem mapTyGoals_id : (gs : List Goal) → mapTyGoals id gs = gs
  | [] => rfl
  | g :: gs => by rw [mapTyGoals, g.mapTy_id, mapTyGoals_id gs]

theorem mapTyAssumptions_id : (as : List Assumption) → mapTyAssumptions id as = as
  | [] => rfl
  | a :: as => by rw [mapTyAssumptions, a.mapTy_id, mapTyAssumptions_id as]

end

mutual

theorem Goal.mapTy_mapTy (f h : Ty → Ty) : (g : Goal) → (g.mapTy f).mapTy h = g.mapTy (h ∘ f)
  | .exists gs g => by rw [Goal.mapTy, Goal.mapTy, Goal.mapTy, g.mapTy_mapTy]
  | .implies as g => by rw [Goal.mapTy, Goal.mapTy, Goal.mapTy, mapTyAssumptions_mapTy, g.mapTy_mapTy]
  | .all gs => by rw [Goal.mapTy, Goal.mapTy, Goal.mapTy, mapTyGoals_mapTy]
  | .atom a => by cases a <;> simp [Goal.mapTy, Atom.mapTy, TraitRef.mapTy]
  | .maybe => rfl

theorem Assumption.mapTy_mapTy (f h : Ty → Ty) : (a : Assumption) →
    (a.mapTy f).mapTy h = a.mapTy (h ∘ f)
  | .traitImpl t r => by simp [Assumption.mapTy, TraitRef.mapTy]
  | .normalizesTo a t => by cases a <;> simp [Assumption.mapTy, AliasTy.mapTy]
  | .implies gs p => by
      rw [Assumption.mapTy, Assumption.mapTy, Assumption.mapTy, mapTyGoals_mapTy]
      simp [WherePredicate.mapTy, TraitRef.mapTy]
  | .all as => by rw [Assumption.mapTy, Assumption.mapTy, Assumption.mapTy, mapTyAssumptions_mapTy]

theorem mapTyGoals_mapTy (f h : Ty → Ty) : (gs : List Goal) →
    mapTyGoals h (mapTyGoals f gs) = mapTyGoals (h ∘ f) gs
  | [] => rfl
  | g :: gs => by rw [mapTyGoals, mapTyGoals, mapTyGoals, g.mapTy_mapTy, mapTyGoals_mapTy]

theorem mapTyAssumptions_mapTy (f h : Ty → Ty) : (as : List Assumption) →
    mapTyAssumptions h (mapTyAssumptions f as) = mapTyAssumptions (h ∘ f) as
  | [] => rfl
  | a :: as => by
      rw [mapTyAssumptions, mapTyAssumptions, mapTyAssumptions, a.mapTy_mapTy,
        mapTyAssumptions_mapTy]

end

mutual

theorem Goal.conjuncts_mapTy (f : Ty → Ty) : (g : Goal) →
    (g.mapTy f).conjuncts = g.conjuncts.map (Goal.mapTy f)
  | .all gs => by simpa [Goal.mapTy, Goal.conjuncts] using conjuncts_mapTyGoals f gs
  | .exists _ _ | .implies _ _ | .atom _ | .maybe => rfl

theorem conjuncts_mapTyGoals (f : Ty → Ty) : (gs : List Goal) →
    (mapTyGoals f gs).flatMap Goal.conjuncts = (gs.flatMap Goal.conjuncts).map (Goal.mapTy f)
  | [] => rfl
  | g :: gs => by
      rw [mapTyGoals, List.flatMap_cons, List.flatMap_cons, List.map_append, g.conjuncts_mapTy,
        conjuncts_mapTyGoals]

end

mutual

theorem Assumption.facts_mapTy (f : Ty → Ty) : (a : Assumption) →
    (a.mapTy f).facts = a.facts.map (Assumption.mapTy f)
  | .all as => by simpa [Assumption.mapTy, Assumption.facts] using facts_mapTyAssumptions f as
  | .traitImpl _ _ | .normalizesTo _ _ | .implies _ _ => rfl

theorem facts_mapTyAssumptions (f : Ty → Ty) : (as : List Assumption) →
    (mapTyAssumptions f as).flatMap Assumption.facts =
      (as.flatMap Assumption.facts).map (Assumption.mapTy f)
  | [] => rfl
  | a :: as => by
      rw [mapTyAssumptions, List.flatMap_cons, List.flatMap_cons, List.map_append, a.facts_mapTy,
        facts_mapTyAssumptions]

end

theorem flatten_mapTy (f : Ty → Ty) (as : List Assumption) :
    Assumption.flatten (mapTyAssumptions f as) = mapTyAssumptions f (Assumption.flatten as) := by
  rw [Assumption.flatten_eq, Assumption.flatten_eq, facts_mapTyAssumptions, mapTyAssumptions_eq]

mutual

/-- Splicing and applying a function to the types commute. -/
theorem Goal.spliced_mapTy (f : Ty → Ty) : (g : Goal) → (g.mapTy f).spliced = g.spliced.mapTy f
  | .exists gs g => by rw [Goal.mapTy, Goal.spliced, Goal.spliced, Goal.mapTy, g.spliced_mapTy]
  | .implies as g => by
      rw [Goal.mapTy, Goal.spliced, Goal.spliced, Goal.mapTy, g.spliced_mapTy,
        splicedAssumptions_mapTy, flatten_mapTy]
  | .all gs => by
      rw [Goal.mapTy, Goal.spliced, Goal.spliced, Goal.mkAll, Goal.mkAll, Goal.mapTy,
        splicedGoals_mapTy, mapTyGoals_eq f (Goal.conjunctsList _), Goal.conjunctsList_eq_flatMap,
        Goal.conjunctsList_eq_flatMap, conjuncts_mapTyGoals]
  | .atom _ | .maybe => rfl

theorem Assumption.spliced_mapTy (f : Ty → Ty) : (a : Assumption) →
    (a.mapTy f).spliced = a.spliced.mapTy f
  | .traitImpl _ _ | .normalizesTo _ _ => rfl
  | .implies gs p => by
      rw [Assumption.mapTy, Assumption.spliced, Assumption.spliced, Assumption.mapTy,
        splicedGoals_mapTy]
  | .all as => by
      rw [Assumption.mapTy, Assumption.spliced, Assumption.spliced, Assumption.mapTy,
        splicedAssumptions_mapTy, flatten_mapTy]

theorem splicedGoals_mapTy (f : Ty → Ty) : (gs : List Goal) →
    splicedGoals (mapTyGoals f gs) = mapTyGoals f (splicedGoals gs)
  | [] => rfl
  | g :: gs => by
      rw [mapTyGoals, splicedGoals, splicedGoals, mapTyGoals, g.spliced_mapTy, splicedGoals_mapTy]

theorem splicedAssumptions_mapTy (f : Ty → Ty) : (as : List Assumption) →
    splicedAssumptions (mapTyAssumptions f as) = mapTyAssumptions f (splicedAssumptions as)
  | [] => rfl
  | a :: as => by
      rw [mapTyAssumptions, splicedAssumptions, splicedAssumptions, mapTyAssumptions,
        a.spliced_mapTy, splicedAssumptions_mapTy]

end

end Laws

/-! ### The copier on goals -/

namespace IrCopier

variable {δ : TypeMapping} {b : Binders}

theorem traitRef_mapM (f : Ty → Ty) (r : TraitRef) :
    r.mapM (fun t => pure (f t)) = (pure (r.mapTy f) : Copy TraitRef) := by
  simp [TraitRef.mapM, TraitRef.mapTy]

theorem wherePredicate_mapM (f : Ty → Ty) (p : WherePredicate) :
    p.mapM (fun t => pure (f t)) = (pure (p.mapTy f) : Copy WherePredicate) := by
  simp [WherePredicate.mapM, WherePredicate.mapTy, traitRef_mapM]

theorem atom_mapM (f : Ty → Ty) (a : Atom) :
    a.mapM (fun t => pure (f t)) = (pure (a.mapTy f) : Copy Atom) := by
  cases a <;> simp [Atom.mapM, Atom.mapTy, traitRef_mapM]

theorem alias_mapM (f : Ty → Ty) (a : AliasTy) :
    a.mapM (fun t => pure (f t)) = (pure (a.mapTy f) : Copy AliasTy) := by
  cases a <;> simp [AliasTy.mapM, AliasTy.mapTy]

theorem walk_atom (b : Binders) (a : Atom) : (Goal.atom a).walk (walker δ) b =
    pure (.atom (a.mapTy (copyTy δ b))) := by
  rw [Goal.walk, show (walker δ).ty b = fun t => pure (copyTy δ b t) from rfl, atom_mapM, pure_bind]

theorem walk_traitImpl (b : Binders) (t : Ty) (r : TraitRef) :
    (Assumption.traitImpl t r).walk (walker δ) b =
      pure ((Assumption.traitImpl t r).mapTy (copyTy δ b)) := by
  rw [Assumption.walk, show (walker δ).ty b = fun t => pure (copyTy δ b t) from rfl, traitRef_mapM,
    pure_bind, pure_bind]
  rfl

theorem walk_normalizesTo (b : Binders) (a : AliasTy) (t : Ty) :
    (Assumption.normalizesTo a t).walk (walker δ) b =
      pure ((Assumption.normalizesTo a t).mapTy (copyTy δ b)) := by
  rw [Assumption.walk, show (walker δ).ty b = fun t => pure (copyTy δ b t) from rfl, alias_mapM,
    pure_bind, pure_bind]
  rfl

theorem walk_implies (b : Binders) (gs : List Goal) (p : WherePredicate) :
    (Assumption.implies gs p).walk (walker δ) b =
      (do return .implies (← walkGoals (walker δ) b gs) (p.mapTy (copyTy δ b))) := by
  rw [Assumption.walk, show (walker δ).ty b = fun t => pure (copyTy δ b t) from rfl,
    wherePredicate_mapM]
  rfl

theorem bind_run {α β : Type} (x : Copy α) (k : α → Copy β) (s : Option Nat) :
    (x >>= k) s = k (x s).1 (x s).2 := rfl

theorem pure_run {α : Type} (a : α) (s : Option Nat) : (pure a : Copy α) s = (a, s) := rfl

/-- The numbers the parameters of a binder get. -/
theorem rename_mapM (gs : List GenericParam) (m : Nat) :
    gs.mapM (walker δ).rename (some m) =
      (Canonicalizer.targets m gs, some (m + gs.length)) := by
  induction gs generalizing m with
  | nil => rfl
  | cons p gs ih =>
      have hp : (walker δ).rename p (some m) = (.alphaEquiv ⟨p.kind, m⟩, some (m + 1)) := rfl
      rw [List.mapM_cons, bind_run, hp, bind_run, ih, pure_run, List.length_cons, Nat.add_right_comm]
      rfl

theorem length_targets (m : Nat) (gs : List GenericParam) :
    (Canonicalizer.targets m gs).length = gs.length := by
  induction gs generalizing m with
  | nil => rfl
  | cons p gs ih => simp [Canonicalizer.targets, ih]

theorem targets_append (m : Nat) (gs hs : List GenericParam) :
    Canonicalizer.targets m (gs ++ hs) =
      Canonicalizer.targets m gs ++ Canonicalizer.targets (m + gs.length) hs := by
  induction gs generalizing m with
  | nil => rfl
  | cons p gs ih =>
      simp only [List.cons_append, Canonicalizer.targets, ih, List.length_cons, Nat.add_comm,
        Nat.add_left_comm]

/-- A traversal that meets the binders `bs` numbers them in order, and `names` reads the numbers
off its result. -/
def Numbers {α : Type} (x : Copy α) (bs : List GenericParam) (names : α → List GenericParam) :
    Prop :=
  ∀ m, names (x (some m)).1 = Canonicalizer.targets m bs ∧
    (x (some m)).2 = some (m + bs.length)

section Numbers

variable {α β γ : Type} {x : Copy α} {bs cs : List GenericParam} {names : α → List GenericParam}

theorem Numbers.pure {a : α} (h : names a = []) : Numbers (Pure.pure a) [] names :=
  fun _ => ⟨h, rfl⟩

theorem Numbers.map {names' : β → List GenericParam} (h : Numbers x bs names) {f : α → β}
    (hf : ∀ a, names' (f a) = names a) : Numbers (do return f (← x)) bs names' :=
  fun m => ⟨(hf _).trans (h m).1, (h m).2⟩

theorem Numbers.seq {names' : β → List GenericParam} {names'' : γ → List GenericParam}
    (h : Numbers x bs names) {y : α → Copy β} (hy : ∀ a, Numbers (y a) cs names') {f : α → β → γ}
    (hf : ∀ a b, names'' (f a b) = names a ++ names' b) :
    Numbers (do let a ← x; let b ← y a; return f a b) (bs ++ cs) names'' := by
  intro m
  obtain ⟨hx, hs⟩ := h m
  obtain ⟨hb, ht⟩ := hy (x (some m)).1 (m + bs.length)
  rw [← hs] at hb ht
  refine ⟨(hf _ _).trans ?_, ht.trans ?_⟩
  · rw [targets_append, hx, hb]
  · rw [List.length_append, Nat.add_assoc]

theorem numbers_rename (gs : List GenericParam) : Numbers (gs.mapM (walker δ).rename) gs id :=
  fun m => ⟨congrArg Prod.fst (rename_mapM gs m), congrArg Prod.snd (rename_mapM gs m)⟩

mutual

theorem numbers_goal (b : Binders) : (g : Goal) →
    Numbers (g.walk (walker δ) b) g.binders Goal.binders
  | .exists gs g => (numbers_rename gs).seq (fun _ => numbers_goal _ g) fun _ _ => rfl
  | .implies as g => (numbers_assumptions b as).seq (fun _ => numbers_goal b g) fun as g => by
      rw [Goal.binders, binders_flatten]
  | .all gs => (numbers_goals b gs).map binders_mkAll
  | .atom a => by
      rw [walk_atom]
      exact .pure rfl
  | .maybe => .pure rfl

theorem numbers_assumption (b : Binders) : (a : Assumption) →
    Numbers (a.walk (walker δ) b) a.binders Assumption.binders
  | .traitImpl t r => by
      rw [walk_traitImpl]
      exact .pure rfl
  | .normalizesTo a t => by
      rw [walk_normalizesTo]
      exact .pure rfl
  | .implies gs p => by
      rw [walk_implies]
      exact (numbers_goals b gs).map fun _ => rfl
  | .all as => (numbers_assumptions b as).map fun as => by
      rw [Assumption.binders, binders_flatten]

theorem numbers_goals (b : Binders) : (gs : List Goal) →
    Numbers (walkGoals (walker δ) b gs) (bindersGoals gs) bindersGoals
  | [] => .pure rfl
  | g :: gs => (numbers_goal b g).seq (fun _ => numbers_goals b gs) fun _ _ => rfl

theorem numbers_assumptions (b : Binders) : (as : List Assumption) →
    Numbers (walkAssumptions (walker δ) b as) (bindersAssumptions as) bindersAssumptions
  | [] => .pure rfl
  | a :: as => (numbers_assumption b a).seq (fun _ => numbers_assumptions b as) fun _ _ => rfl

end

end Numbers

/-! #### Goals without binders -/

mutual

/-- Without binders to number, the copier applies the mapping to the types. -/
theorem walk_of_unbound (b : Binders) : (g : Goal) → g.binders = [] →
    g.walk (walker δ) b = pure (g.mapTy (copyTy δ b)).spliced
  | .exists gs g, h => by
      obtain ⟨rfl, hg⟩ := List.append_eq_nil_iff.mp h
      have henter : b.enter [] [] = b := rfl
      rw [Goal.walk, List.mapM_nil, pure_bind, henter, walk_of_unbound b g hg, pure_bind]
      rfl
  | .implies as g, h => by
      obtain ⟨has, hg⟩ := List.append_eq_nil_iff.mp h
      rw [Goal.walk, walkAssumptions_of_unbound b as has, pure_bind, walk_of_unbound b g hg,
        pure_bind]
      rfl
  | .all gs, h => by
      rw [Goal.walk, walkGoals_of_unbound b gs h, pure_bind]
      rfl
  | .atom a, _ => walk_atom b a
  | .maybe, _ => rfl

theorem walkAssumption_of_unbound (b : Binders) : (a : Assumption) → a.binders = [] →
    a.walk (walker δ) b = pure (a.mapTy (copyTy δ b)).spliced
  | .traitImpl t r, _ => walk_traitImpl b t r
  | .normalizesTo a t, _ => walk_normalizesTo b a t
  | .implies gs p, h => by
      rw [walk_implies, walkGoals_of_unbound b gs h, pure_bind]
      rfl
  | .all as, h => by
      rw [Assumption.walk, walkAssumptions_of_unbound b as h, pure_bind]
      rfl

theorem walkGoals_of_unbound (b : Binders) : (gs : List Goal) → bindersGoals gs = [] →
    walkGoals (walker δ) b gs = pure (splicedGoals (mapTyGoals (copyTy δ b) gs))
  | [], _ => rfl
  | g :: gs, h => by
      obtain ⟨hg, hgs⟩ := List.append_eq_nil_iff.mp h
      rw [walkGoals, walk_of_unbound b g hg, pure_bind, walkGoals_of_unbound b gs hgs, pure_bind]
      rfl

theorem walkAssumptions_of_unbound (b : Binders) : (as : List Assumption) →
    bindersAssumptions as = [] →
    walkAssumptions (walker δ) b as =
      pure (splicedAssumptions (mapTyAssumptions (copyTy δ b) as))
  | [], _ => rfl
  | a :: as, h => by
      obtain ⟨ha, has⟩ := List.append_eq_nil_iff.mp h
      rw [walkAssumptions, walkAssumption_of_unbound b a ha, pure_bind,
        walkAssumptions_of_unbound b as has, pure_bind]
      rfl

end

/-! #### The conjuncts of a copy -/

/-- The copy of a goal whose binders are numbered from within a range. -/
def CopyOf (δ : TypeMapping) (m e : Nat) (g h : Goal) : Prop :=
  ∃ n, m ≤ n ∧ n + g.binders.length ≤ e ∧ (g.walk (walker δ) (fun _ => none) (some n)).1 = h

theorem CopyOf.mono {m m' e e' : Nat} {g h : Goal} (hc : CopyOf δ m e g h) (hm : m' ≤ m)
    (he : e ≤ e') : CopyOf δ m' e' g h := by
  obtain ⟨n, hn, hle, hrun⟩ := hc
  exact ⟨n, hm.trans hn, hle.trans he, hrun⟩

theorem CopyOf.binders {m e : Nat} {g h : Goal} (hc : CopyOf δ m e g h) :
    ∃ n, m ≤ n ∧ n + g.binders.length ≤ e ∧ h.binders = Canonicalizer.targets n g.binders := by
  obtain ⟨n, hn, hle, rfl⟩ := hc
  exact ⟨n, hn, hle, (numbers_goal _ g n).1⟩

theorem CopyOf.of_unbound {m e : Nat} {g h : Goal} (hc : CopyOf δ m e g h) (hg : g.binders = []) :
    h = (g.mapTy (copyTy δ fun _ => none)).spliced := by
  obtain ⟨n, -, -, rfl⟩ := hc
  rw [walk_of_unbound _ g hg]
  rfl

theorem CopyOf.of_atom {m e : Nat} {a : Atom} {h : Goal} (hc : CopyOf δ m e (.atom a) h) :
    h = .atom (a.mapTy (copyTy δ fun _ => none)) := hc.of_unbound rfl

/-- Only atoms are copied to atoms. -/
theorem CopyOf.to_atom {m e : Nat} {b : Atom} {g : Goal} (hc : CopyOf δ m e g (.atom b)) :
    ∃ a, g = .atom a ∧ b = a.mapTy (copyTy δ fun _ => none) := by
  cases g with
  | atom a => exact ⟨a, rfl, Goal.atom.inj hc.of_atom⟩
  | «exists» | implies | all | maybe =>
      obtain ⟨n, -, -, hrun⟩ := hc
      cases hrun

theorem copyOf_self {g : Goal} {m : Nat} (hg : g.Single)
    (hs : (g.walk (walker δ) (fun _ => none) (some m)).1.Single) :
    List.Forall₂ (CopyOf δ m (m + g.binders.length)) g.conjuncts
      (g.walk (walker δ) (fun _ => none) (some m)).1.conjuncts := by
  rw [hs.conjuncts_eq, hg.conjuncts_eq]
  exact .cons ⟨m, Nat.le_refl m, Nat.le_refl _, rfl⟩ .nil

mutual

/-- The conjuncts of a copied goal are the copies of its conjuncts. -/
theorem conjuncts_copied (m : Nat) : (g : Goal) →
    List.Forall₂ (CopyOf δ m (m + g.binders.length)) g.conjuncts
      (g.walk (walker δ) (fun _ => none) (some m)).1.conjuncts
  | .exists gs g => copyOf_self trivial trivial
  | .implies as g => copyOf_self trivial trivial
  | .atom a => copyOf_self trivial (by rw [walk_atom]; trivial)
  | .maybe => copyOf_self trivial trivial
  | .all gs => by
      have hrun : (Goal.walk (walker δ) (fun _ => none) (.all gs) (some m)).1 =
          Goal.mkAll (walkGoals (walker δ) (fun _ => none) gs (some m)).1 := rfl
      rw [hrun, Goal.mkAll, Goal.conjuncts, Goal.conjunctsList_eq_flatMap, Goal.conjuncts,
        Goal.conjunctsList_eq_flatMap, Goal.conjunctsList_eq_flatMap,
        flatMap_conjuncts_self (single_of_mem_flatMap _)]
      exact goals_copied m gs

theorem goals_copied (m : Nat) : (gs : List Goal) →
    List.Forall₂ (CopyOf δ m (m + (bindersGoals gs).length)) (gs.flatMap Goal.conjuncts)
      ((walkGoals (walker δ) (fun _ => none) gs (some m)).1.flatMap Goal.conjuncts)
  | [] => .nil
  | g :: gs => by
      have hrun : (walkGoals (walker δ) (fun _ => none) (g :: gs) (some m)).1 =
          (g.walk (walker δ) (fun _ => none) (some m)).1 ::
            (walkGoals (walker δ) (fun _ => none) gs
              (g.walk (walker δ) (fun _ => none) (some m)).2).1 := rfl
      rw [hrun, (numbers_goal _ g m).2, List.flatMap_cons, List.flatMap_cons, bindersGoals,
        List.length_append, ← Nat.add_assoc]
      refine List.rel_append ?_ ?_
      · exact (conjuncts_copied m g).imp fun _ _ h => h.mono (Nat.le_refl m) (Nat.le_add_right ..)
      · exact (goals_copied _ gs).imp fun _ _ h => h.mono (Nat.le_add_right ..) (Nat.le_refl _)

end

end IrCopier

end Sage
