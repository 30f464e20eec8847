import Sage.Solve.Elaborate
import Sage.Solve.Instance

/-!
# Check — instantiated signatures

`ty_fold.rs`.  A signature is used by folding its types with the arguments for the parameters of
its binder.  Arguments are types, and only type parameters are paired with one.

* `substitute`, `substitute_substitute` — the fold, and two of them in a row.
* `Signature` — what has types that can be folded: functions, structs, enums.
* `instantiate`, `SubstitutionLemma`, `instantiate_iff`.
-/

namespace Sage

open Terms

/-! ### Substitution -/

/-- What a generic parameter maps to. -/
inductive SubstTarget where
  | ty (ty : Ty)
  | const (c : Const)

abbrev ParamSubst := GenericParam → Option SubstTarget

/-- Array lengths are rebuilt as they are. -/
def substitute (subst : ParamSubst) : Ty → Ty :=
  Ty.foldLeaves .inferVar
    (fun param =>
      match subst param with
      | some (.ty ty) => ty
      | some (.const _) | none => .param param) id

/-- First `s`, then `t` on what `s` leaves and on what it puts in. -/
def ParamSubst.andThen (s t : ParamSubst) : ParamSubst := fun param =>
  match s param with
  | some (.ty ty) => some (.ty (substitute t ty))
  | some (.const _) | none => t param

@[grind =] def ParamSubst.insert (subst : ParamSubst) (row : GenericParam × Ty) : ParamSubst :=
  Function.update subst row.1 (some (.ty row.2))

/-- The parameters of the type kind, paired with the arguments. -/
def buildTypeSubstMap (generics : List GenericParam) (args : List Ty) : ParamSubst :=
  ((generics.filter fun parameter => parameter.kind = .type).zip args).foldl
    ParamSubst.insert fun _ => none

section Substitute

variable {s t : ParamSubst} {ty : Ty} {p : GenericParam}

theorem substitute_param : substitute s (.param p) =
    match s p with
    | some (.ty ty) => ty
    | some (.const _) | none => .param p := rfl

theorem substitute_inferVar (x : InferVarIndex) : substitute s (.inferVar x) = .inferVar x := rfl

theorem decompose_substitute (h : ty.Inner) : decompose (substitute s ty) =
    ⟨(decompose ty).skeleton, (decompose ty).children.map (substitute s)⟩ := by
  rcases ty with _ | _ | _ | _ | _ | _ | _ | (_ | _ | _) | _ | _ | _ | _ | _ | _ | _ | _ | _ <;>
    first | exact h.elim | simp [decompose, leaf, substitute, Ty.foldLeaves, AliasTy.foldLeaves]

theorem inner_substitute (h : ty.Inner) : (substitute s ty).Inner :=
  Ty.inner_of_skeleton h (by rw [decompose_substitute h])

/-- One fold is as good as two. -/
theorem substitute_substitute (s t : ParamSubst) (ty : Ty) :
    substitute t (substitute s ty) = substitute (s.andThen t) ty := by
  induction ty using Ty.induction with
  | step ty ih =>
      rcases ty.cases_leaf with h | ⟨x, rfl⟩ | ⟨p, rfl⟩
      · refine decompose_injective ?_ ?_
        · rw [decompose_substitute (inner_substitute h), decompose_substitute h,
            decompose_substitute h]
        · rw [decompose_substitute (inner_substitute h), decompose_substitute h,
            decompose_substitute h, List.map_map]
          exact List.map_congr_left ih
      · rfl
      · rw [substitute_param, substitute_param, ParamSubst.andThen]
        cases s p with
        | none => rfl
        | some target => cases target <;> rfl

end Substitute

/-! ### Positions -/

/-- The type at a path of child numbers. -/
@[grind =] def Ty.at : Ty → List Nat → Option Ty
  | ty, [] => some ty
  | ty, i :: path =>
      match (decompose ty).children[i]? with
      | some child => child.at path
      | none => none

/-- The parameter a type starts with, or that is its length. -/
def Ty.headParam : Ty → Option GenericParam
  | .param p => some p
  | .array _ (.param p) => some p
  | _ => none

/-- Parameters stand where their kind may. -/
def Ty.HeadKind : Ty → Prop
  | .param p => p.kind = .type
  | .array _ (.param p) => p.kind = .const
  | _ => True

/-- The invariant of `Ty::Param` and of `Const::Param`. -/
def Ty.WellKinded (ty : Ty) : Prop := ∀ path u, ty.at path = some u → u.HeadKind

def Ty.Names (ty : Ty) (p : GenericParam) : Prop :=
  ∃ path u, ty.at path = some u ∧ u.headParam = some p

namespace Ty

variable {s : ParamSubst} {ty u : Ty} {p : GenericParam}

theorem at_append {path : List Nat} (h : ty.at path = some u) (rest : List Nat) :
    ty.at (path ++ rest) = u.at rest := by
  induction path generalizing ty with
  | nil => rw [Ty.at, Option.some.injEq] at h; rw [h, List.nil_append]
  | cons i path ih =>
      rw [Ty.at] at h
      rw [List.cons_append, Ty.at]
      cases hc : (decompose ty).children[i]? with
      | none => rw [hc] at h; cases h
      | some child => rw [hc] at h; exact ih h

/-- Leaves have no children. -/
theorem inner_of_at {i : Nat} {path : List Nat} (h : ty.at (i :: path) = some u) : ty.Inner := by
  rcases ty.cases_leaf with hi | ⟨x, rfl⟩ | ⟨p, rfl⟩
  · exact hi
  all_goals
    rw [Ty.at] at h
    simp [decompose, leaf] at h

theorem at_substitute_cons (hi : ty.Inner) (i : Nat) (path : List Nat) :
    (substitute s ty).at (i :: path) =
      match (decompose ty).children[i]? with
      | some child => (substitute s child).at path
      | none => none := by
  rw [Ty.at, decompose_substitute hi, List.getElem?_map]
  cases (decompose ty).children[i]? <;> rfl

/-- Every position of a type is one of the folded type. -/
theorem at_substitute {path : List Nat} (h : ty.at path = some u) :
    (substitute s ty).at path = some (substitute s u) := by
  induction path generalizing ty with
  | nil => rw [Ty.at, Option.some.injEq] at h; rw [h, Ty.at]
  | cons i path ih =>
      rw [at_substitute_cons (inner_of_at h)]
      rw [Ty.at] at h
      cases hc : (decompose ty).children[i]? with
      | none => rw [hc] at h; cases h
      | some child => rw [hc] at h; exact ih h

/-- What else there is lies in what replaced a parameter. -/
theorem of_at_substitute {path : List Nat} {v : Ty} (h : (substitute s ty).at path = some v) :
    (∃ u, ty.at path = some u ∧ u.Inner ∧ v = substitute s u) ∨
      (∃ x, ty.at path = some (.inferVar x) ∧ v = .inferVar x) ∨
      ∃ before after q, path = before ++ after ∧ ty.at before = some (.param q) ∧
        (substitute s (.param q)).at after = some v := by
  induction path generalizing ty with
  | nil =>
      rw [Ty.at, Option.some.injEq] at h
      subst h
      rcases ty.cases_leaf with hi | ⟨x, rfl⟩ | ⟨q, rfl⟩
      · exact .inl ⟨ty, rfl, hi, rfl⟩
      · exact .inr (.inl ⟨x, rfl, rfl⟩)
      · exact .inr (.inr ⟨[], [], q, rfl, rfl, rfl⟩)
  | cons i path ih =>
      rcases ty.cases_leaf with hi | ⟨x, rfl⟩ | ⟨q, rfl⟩
      · rw [at_substitute_cons hi] at h
        cases hc : (decompose ty).children[i]? with
        | none => rw [hc] at h; cases h
        | some child =>
            rw [hc] at h
            -- the position is below the same child of the source
            have hat : ∀ rest, ty.at (i :: rest) = child.at rest := by
              intro rest
              rw [Ty.at, hc]
            rcases ih h with ⟨u, hu, hui, hv⟩ | ⟨x, hx, hv⟩ |
              ⟨before, after, q, rfl, hq, hv⟩
            · exact .inl ⟨u, by rw [hat, hu], hui, hv⟩
            · exact .inr (.inl ⟨x, by rw [hat, hx], hv⟩)
            · exact .inr (.inr ⟨i :: before, after, q, rfl, by rw [hat, hq], hv⟩)
      · exact absurd h (by rw [substitute_inferVar, Ty.at]; simp [decompose, leaf])
      · exact .inr (.inr ⟨[], i :: path, q, rfl, rfl, h⟩)

/-- Folding keeps the length of an array. -/
theorem headParam_substitute (h : ty.Inner) : (substitute s ty).headParam = ty.headParam := by
  rcases ty with
    _ | _ | _ | _ | _ | _ | _ | (_ | _ | _) | _ | _ | _ | ⟨_, _ | q | _⟩ | _ | _ | _ | _ | _
  case param | inferVar => exact h.elim
  all_goals rfl

theorem array_of_headParam (h : ty.Inner) (hp : ty.headParam = some p) :
    ∃ inner, ty = .array inner (.param p) := by
  rcases ty with
    _ | _ | _ | _ | _ | _ | _ | (_ | _ | _) | _ | _ | _ | ⟨t, _ | q | _⟩ | _ | _ | _ | _ | _
  case param | inferVar => exact h.elim
  case array.param =>
    obtain rfl : q = p := Option.some.inj hp
    exact ⟨t, rfl⟩
  all_goals cases hp

theorem wellKinded_of_children (hhead : ty.HeadKind)
    (h : ∀ child ∈ (decompose ty).children, child.WellKinded) : ty.WellKinded := by
  intro path u hu
  cases path with
  | nil =>
      obtain rfl : ty = u := Option.some.inj hu
      exact hhead
  | cons i path =>
      rw [Ty.at] at hu
      cases hc : (decompose ty).children[i]? with
      | none => rw [hc] at hu; cases hu
      | some child => rw [hc] at hu; exact h child (List.mem_of_getElem? hc) path u hu

end Ty

/-! ### Signatures -/

inductive MethodReceiver where
  | value (mutableBinding : Bool)
  | ref (mutability : Mutability)
deriving DecidableEq

structure CheckedReceiver where
  ownerSelfTy : Ty
  form : MethodReceiver

@[ext] structure FnSig where
  /-- How many parameters of the binder belong to the trait or the impl. -/
  ownerGenericCount : UInt32
  ownerSelfTy : Option Ty
  receiver : Option CheckedReceiver
  params : List Ty
  ret : Ty
  parameterEnv : CheckedParameterEnv
  methodCandidateEligibility : SolverEligibility
  constCallComplete : Bool
  /-- A receiver has the owner type of its function. -/
  received : ∀ r ∈ receiver, ownerSelfTy = some r.ownerSelfTy

structure StructSig where
  parameterEnv : CheckedParameterEnv

structure FieldSig where
  name : String
  ty : Ty

structure VariantSig where
  name : String
  fields : List FieldSig

structure EnumSig where
  variants : List VariantSig
  parameterEnv : CheckedParameterEnv

section Fold

variable (foldTy : Ty → Ty)

@[grind =] def foldParameterEnv (env : CheckedParameterEnv) : CheckedParameterEnv where
  whereClauses := env.whereClauses.map (WherePredicate.mapTy foldTy)
  solverEligibility := env.solverEligibility

/-- The receiver is rebuilt from the folded owner type. -/
def foldReceiver (ownerSelfTy : Option Ty) (receiver : Option CheckedReceiver) :
    Option CheckedReceiver :=
  match receiver, ownerSelfTy with
  | some receiver, some ownerSelfTy => some ⟨ownerSelfTy, receiver.form⟩
  -- a receiver without an owner type panics, and `received` excludes it
  | some _, none => none
  | none, _ => none

def foldFnSig (sig : FnSig) : FnSig where
  ownerGenericCount := sig.ownerGenericCount
  ownerSelfTy := sig.ownerSelfTy.map foldTy
  receiver := foldReceiver (sig.ownerSelfTy.map foldTy) sig.receiver
  params := sig.params.map foldTy
  ret := foldTy sig.ret
  parameterEnv := foldParameterEnv foldTy sig.parameterEnv
  methodCandidateEligibility := sig.methodCandidateEligibility
  constCallComplete := sig.constCallComplete
  received := by
    intro r hr
    cases howner : sig.ownerSelfTy.map foldTy <;> cases hreceiver : sig.receiver <;>
      simp [foldReceiver, howner, hreceiver] at hr ⊢
    rw [← hr]

def foldStructSig (sig : StructSig) : StructSig where
  parameterEnv := foldParameterEnv foldTy sig.parameterEnv

def foldFieldSig (field : FieldSig) : FieldSig := ⟨field.name, foldTy field.ty⟩

def foldVariantSig (variant : VariantSig) : VariantSig :=
  ⟨variant.name, variant.fields.map (foldFieldSig foldTy)⟩

def foldEnumSig (sig : EnumSig) : EnumSig where
  variants := sig.variants.map (foldVariantSig foldTy)
  parameterEnv := foldParameterEnv foldTy sig.parameterEnv

end Fold

def WherePredicate.types (predicate : WherePredicate) : List Ty :=
  predicate.selfTy :: predicate.traitRef.args

def CheckedParameterEnv.types (env : CheckedParameterEnv) : List Ty :=
  env.whereClauses.flatMap WherePredicate.types

def FnSig.types (sig : FnSig) : List Ty :=
  sig.ownerSelfTy.toList ++ (sig.receiver.map CheckedReceiver.ownerSelfTy).toList ++ sig.params ++
    [sig.ret] ++ sig.parameterEnv.types

def StructSig.types (sig : StructSig) : List Ty := sig.parameterEnv.types

def EnumSig.types (sig : EnumSig) : List Ty :=
  sig.variants.flatMap (fun variant => variant.fields.map FieldSig.ty) ++ sig.parameterEnv.types

/-- What has types, all of which the fold visits. -/
class Signature (S : Type) where
  types : S → List Ty
  fold : (Ty → Ty) → S → S
  types_fold : ∀ f sig, types (fold f sig) = (types sig).map f
  fold_fold : ∀ f g sig, fold g (fold f sig) = fold (g ∘ f) sig

section Lawful

variable (f g : Ty → Ty)

theorem WherePredicate.mapTy_mapTy (predicate : WherePredicate) :
    (predicate.mapTy f).mapTy g = predicate.mapTy (g ∘ f) := by
  simp [mapTy, TraitRef.mapTy]

theorem types_foldParameterEnv (env : CheckedParameterEnv) :
    (foldParameterEnv f env).types = env.types.map f := by
  simp [CheckedParameterEnv.types, foldParameterEnv, List.flatMap_map, List.map_flatMap,
    WherePredicate.types, WherePredicate.mapTy, TraitRef.mapTy]

theorem foldParameterEnv_foldParameterEnv (env : CheckedParameterEnv) :
    foldParameterEnv g (foldParameterEnv f env) = foldParameterEnv (g ∘ f) env := by
  simp [foldParameterEnv, Function.comp_def, WherePredicate.mapTy_mapTy]

/-- The receiver of a folded function has the folded type. -/
theorem foldReceiver_eq (sig : FnSig) : foldReceiver (sig.ownerSelfTy.map f) sig.receiver =
    sig.receiver.map fun r => ⟨f r.ownerSelfTy, r.form⟩ := by
  have h := sig.received
  cases hr : sig.receiver with
  | none => rfl
  | some r => rw [h r hr]; rfl

theorem types_foldFnSig (sig : FnSig) : (foldFnSig f sig).types = sig.types.map f := by
  rw [FnSig.types, FnSig.types]
  simp only [foldFnSig, foldReceiver_eq, types_foldParameterEnv, List.map_append, Option.map_map]
  cases sig.ownerSelfTy <;> cases sig.receiver <;> rfl

theorem foldFnSig_foldFnSig (sig : FnSig) :
    foldFnSig g (foldFnSig f sig) = foldFnSig (g ∘ f) sig := by
  refine FnSig.ext rfl (Option.map_map ..) ?_ (List.map_map ..) rfl
    (foldParameterEnv_foldParameterEnv f g _) rfl rfl
  have hreceiver : (foldFnSig f sig).receiver = sig.receiver.map _ := foldReceiver_eq f sig
  refine (foldReceiver_eq g (foldFnSig f sig)).trans ?_
  rw [hreceiver]
  refine Eq.trans ?_ (foldReceiver_eq (g ∘ f) sig).symm
  cases sig.receiver <;> rfl

end Lawful

instance : Signature FnSig := ⟨FnSig.types, foldFnSig, types_foldFnSig, foldFnSig_foldFnSig⟩

instance : Signature StructSig where
  types := StructSig.types
  fold := foldStructSig
  types_fold f sig := types_foldParameterEnv f sig.parameterEnv
  fold_fold f g _ := congrArg StructSig.mk (foldParameterEnv_foldParameterEnv f g _)

instance : Signature EnumSig where
  types := EnumSig.types
  fold := foldEnumSig
  types_fold f sig := by
    simp [EnumSig.types, foldEnumSig, types_foldParameterEnv, foldVariantSig, foldFieldSig,
      List.flatMap_map, List.map_flatMap, Function.comp_def]
  fold_fold f g sig := by
    simp [foldEnumSig, foldParameterEnv_foldParameterEnv, foldVariantSig, foldFieldSig,
      Function.comp_def]

/-! ### Instantiation -/

section Instantiate

variable {S : Type} [Signature S]

/-- The position of a signature below its `i`-th type. -/
def Signature.typeAt (sig : S) (i : Nat) (path : List Nat) : Option Ty :=
  match (types sig)[i]? with
  | some ty => ty.at path
  | none => none

theorem Signature.typeAt_eq_bind {sig : S} {i : Nat} {path : List Nat} :
    typeAt sig i path = (types sig)[i]?.bind fun ty => ty.at path := by
  rw [typeAt]
  cases (types sig)[i]? <;> rfl

/-- Something with types, under parameters. -/
structure Binder (S : Type) [Signature S] where
  value : S
  generics : List GenericParam
  kinds : ∀ ty ∈ Signature.types value, ty.WellKinded

def instantiate (binder : Binder S) (args : List Ty) : S :=
  Signature.fold (substitute (buildTypeSubstMap binder.generics args)) binder.value

def instantiateFnSig : Binder FnSig → List Ty → FnSig := instantiate

def instantiateStructSig : Binder StructSig → List Ty → StructSig := instantiate

def instantiateEnumSig : Binder EnumSig → List Ty → EnumSig := instantiate

/-- As many arguments as there are parameters of the type kind. -/
def Binder.Accepts (binder : Binder S) (args : List Ty) : Prop :=
  args.length = (binder.generics.filter fun parameter => parameter.kind = .type).length

/-- The parameter stands for a type or a length somewhere in the signature. -/
def Signature.Names (sig : S) (p : GenericParam) : Prop :=
  ∃ i path u, typeAt sig i path = some u ∧ u.headParam = some p

/-- What replacing the parameters of a binder should do. -/
structure SubstitutionLemma (binder : Binder S) (args : List Ty) : Prop where
  /-- The own parameters are gone, except where an argument brought them. -/
  closed : ∀ i path u, Signature.typeAt (instantiate binder args) i path = some u →
    ∀ p ∈ binder.generics, u.headParam = some p →
      ∃ before after arg, path = before ++ after ∧ arg ∈ args ∧
        Signature.typeAt (instantiate binder args) i before = some arg ∧
        ∃ q ∈ binder.generics, Signature.typeAt binder.value i before = some (.param q)
  /-- So none is left if the arguments have none. -/
  gone : (∀ arg ∈ args, ∀ p ∈ binder.generics, ¬arg.Names p) →
    ∀ p ∈ binder.generics, ¬Signature.Names (instantiate binder args) p
  /-- Other parameters stay where they are. -/
  others : ∀ i path u, Signature.typeAt binder.value i path = some u →
    ∀ p ∉ binder.generics, u.headParam = some p →
      ∃ u', Signature.typeAt (instantiate binder args) i path = some u' ∧
        (decompose u').skeleton = (decompose u).skeleton
  /-- Two folds are one. -/
  composes : ∀ s t : ParamSubst,
    Signature.fold (substitute t) (Signature.fold (substitute s) binder.value) =
      Signature.fold (substitute (s.andThen t)) binder.value

/-- No parameter of the binder is the length of an array. -/
def Binder.LengthsFree (binder : Binder S) : Prop :=
  ∀ i path inner p, Signature.typeAt binder.value i path = some (.array inner (.param p)) →
    p ∉ binder.generics

variable {binder : Binder S} {args : List Ty} {s : ParamSubst} {sig : S}

theorem typeAt_fold (f : Ty → Ty) (i : Nat) (path : List Nat) :
    Signature.typeAt (Signature.fold f sig) i path =
      match (Signature.types sig)[i]? with
      | some ty => (f ty).at path
      | none => none := by
  rw [Signature.typeAt, Signature.types_fold, List.getElem?_map]
  cases (Signature.types sig)[i]? <;> rfl

theorem typeAt_substitute {i : Nat} {path : List Nat} {u : Ty}
    (h : Signature.typeAt sig i path = some u) :
    Signature.typeAt (Signature.fold (substitute s) sig) i path = some (substitute s u) := by
  rw [typeAt_fold]
  rw [Signature.typeAt] at h
  cases hty : (Signature.types sig)[i]? with
  | none => rw [hty] at h; cases h
  | some ty => rw [hty] at h; exact Ty.at_substitute h

theorem Binder.kind {i : Nat} {path : List Nat} {u : Ty}
    (h : Signature.typeAt binder.value i path = some u) : u.HeadKind := by
  rw [Signature.typeAt] at h
  cases hty : (Signature.types binder.value)[i]? with
  | none => rw [hty] at h; cases h
  | some ty => rw [hty] at h; exact binder.kinds ty (List.mem_of_getElem? hty) path u h

theorem of_typeAt_substitute {i : Nat} {path : List Nat} {v : Ty}
    (h : Signature.typeAt (Signature.fold (substitute s) sig) i path = some v) :
    (∃ u, Signature.typeAt sig i path = some u ∧ u.Inner ∧ v = substitute s u) ∨
      (∃ x, Signature.typeAt sig i path = some (.inferVar x) ∧ v = .inferVar x) ∨
      ∃ before after q, path = before ++ after ∧
        Signature.typeAt sig i before = some (.param q) ∧
        (substitute s (.param q)).at after = some v := by
  rw [typeAt_fold] at h
  cases hty : (Signature.types sig)[i]? with
  | none => rw [hty] at h; cases h
  | some ty =>
      rw [hty] at h
      have hat : ∀ path, Signature.typeAt sig i path = ty.at path := by
        intro path
        rw [Signature.typeAt, hty]
      simp only [hat]
      exact Ty.of_at_substitute h

/-! ### The map -/

theorem foldl_update_of_notMem {rows : List (GenericParam × Ty)} {p : GenericParam}
    (h : ∀ ty, (p, ty) ∉ rows) (start : ParamSubst) :
    rows.foldl ParamSubst.insert start p = start p := by
  induction rows generalizing start with
  | nil => rfl
  | cons row rows ih =>
      have hne : p ≠ row.1 := fun e => h row.2 (e ▸ List.mem_cons_self)
      rw [List.foldl_cons, ih fun ty hty => h ty (List.mem_cons_of_mem _ hty),
        ParamSubst.insert, Function.update_of_ne hne]

/-- The last row for a parameter counts. -/
theorem foldl_update_of_mem {rows : List (GenericParam × Ty)} {p : GenericParam} {ty : Ty}
    (h : (p, ty) ∈ rows) (start : ParamSubst) :
    ∃ ty', (p, ty') ∈ rows ∧
      rows.foldl ParamSubst.insert start p =
        some (.ty ty') := by
  induction rows generalizing start ty with
  | nil => cases h
  | cons row rows ih =>
      rw [List.foldl_cons]
      by_cases hlater : ∃ ty', (p, ty') ∈ rows
      · obtain ⟨ty', hlater⟩ := hlater
        obtain ⟨last, hlast, heq⟩ := ih hlater (start.insert row)
        exact ⟨last, List.mem_cons_of_mem _ hlast, heq⟩
      · obtain rfl | hmem := List.mem_cons.mp h
        · refine ⟨ty, List.mem_cons_self, ?_⟩
          rw [foldl_update_of_notMem fun ty' hty' => hlater ⟨ty', hty'⟩, ParamSubst.insert,
            Function.update_self]
        · exact absurd ⟨ty, hmem⟩ hlater

theorem buildTypeSubstMap_of_notMem {generics : List GenericParam} {p : GenericParam}
    (h : p ∉ generics) : buildTypeSubstMap generics args p = none :=
  foldl_update_of_notMem (fun _ hrow => h (List.mem_of_mem_filter (List.of_mem_zip hrow).1)) _

/-- With enough arguments each type parameter gets one. -/
theorem buildTypeSubstMap_of_mem (haccepts : binder.Accepts args) {p : GenericParam}
    (hp : p ∈ binder.generics) (hkind : p.kind = .type) :
    ∃ arg ∈ args, buildTypeSubstMap binder.generics args p = some (.ty arg) := by
  have hmem : p ∈ binder.generics.filter fun parameter => parameter.kind = .type :=
    List.mem_filter.mpr ⟨hp, decide_eq_true hkind⟩
  obtain ⟨n, hn, rfl⟩ := List.getElem_of_mem hmem
  have hlt : n <
      ((binder.generics.filter fun parameter => parameter.kind = .type).zip args).length := by
    rw [List.length_zip, haccepts, min_self]
    exact hn
  have hrow := List.getElem_mem hlt
  rw [List.getElem_zip] at hrow
  obtain ⟨arg, harg, heq⟩ := foldl_update_of_mem hrow fun _ => none
  exact ⟨arg, (List.of_mem_zip harg).2, heq⟩

/-! ### The lemma -/

theorem typeAt_append {i : Nat} {path : List Nat} {u : Ty}
    (h : Signature.typeAt sig i path = some u) (rest : List Nat) :
    Signature.typeAt sig i (path ++ rest) = u.at rest := by
  rw [Signature.typeAt] at h ⊢
  cases hty : (Signature.types sig)[i]? with
  | none => rw [hty] at h; cases h
  | some ty => rw [hty] at h; exact Ty.at_append h rest

theorem closed_of_lengthsFree (haccepts : binder.Accepts args) (hfree : binder.LengthsFree)
    {i : Nat} {path : List Nat} {u : Ty} {p : GenericParam}
    (hu : Signature.typeAt (instantiate binder args) i path = some u) (hp : p ∈ binder.generics)
    (hhead : u.headParam = some p) :
    ∃ before after arg, path = before ++ after ∧ arg ∈ args ∧
      Signature.typeAt (instantiate binder args) i before = some arg ∧
      ∃ q ∈ binder.generics, Signature.typeAt binder.value i before = some (.param q) := by
  rcases of_typeAt_substitute hu with ⟨v, hv, hinner, rfl⟩ | ⟨x, -, rfl⟩ |
    ⟨before, after, q, rfl, hq, hafter⟩
  · -- a compound type of the signature with a parameter is an array
    rw [Ty.headParam_substitute hinner] at hhead
    obtain ⟨inner, rfl⟩ := Ty.array_of_headParam hinner hhead
    exact absurd hp (hfree i path inner p hv)
  · cases hhead
  · by_cases hown : q ∈ binder.generics
    · obtain ⟨arg, harg, hmap⟩ :=
        buildTypeSubstMap_of_mem haccepts hown (Binder.kind hq)
      refine ⟨before, after, arg, rfl, harg, ?_, q, hown, hq⟩
      have hat := @typeAt_substitute S _ (buildTypeSubstMap binder.generics args) _ _ _ _ hq
      rwa [substitute_param, hmap] at hat
    · rw [substitute_param, buildTypeSubstMap_of_notMem hown] at hafter
      cases after with
      | nil =>
          obtain rfl : Ty.param q = u := Option.some.inj hafter
          obtain rfl : q = p := Option.some.inj hhead
          exact absurd hp hown
      | cons n after => cases hafter

theorem gone_of_closed (hnone : ∀ arg ∈ args, ∀ p ∈ binder.generics, ¬arg.Names p)
    (hclosed : ∀ i path u, Signature.typeAt (instantiate binder args) i path = some u →
      ∀ p ∈ binder.generics, u.headParam = some p →
        ∃ before after arg, path = before ++ after ∧ arg ∈ args ∧
          Signature.typeAt (instantiate binder args) i before = some arg ∧
          ∃ q ∈ binder.generics, Signature.typeAt binder.value i before = some (.param q))
    {p : GenericParam} (hp : p ∈ binder.generics) :
    ¬Signature.Names (instantiate binder args) p := by
  rintro ⟨i, path, u, hu, hhead⟩
  obtain ⟨before, after, arg, rfl, harg, hat, -⟩ := hclosed i path u hu p hp hhead
  rw [typeAt_append hat] at hu
  exact hnone arg harg p hp ⟨after, u, hu, hhead⟩

theorem others_kept {i : Nat} {path : List Nat} {u : Ty} {p : GenericParam}
    (hu : Signature.typeAt binder.value i path = some u) (hp : p ∉ binder.generics)
    (hhead : u.headParam = some p) :
    ∃ u', Signature.typeAt (instantiate binder args) i path = some u' ∧
      (decompose u').skeleton = (decompose u).skeleton := by
  refine ⟨_, typeAt_substitute hu, ?_⟩
  rcases u.cases_leaf with hinner | ⟨x, rfl⟩ | ⟨q, rfl⟩
  · rw [decompose_substitute hinner]
  · rfl
  · obtain rfl : q = p := Option.some.inj hhead
    rw [substitute_param, buildTypeSubstMap_of_notMem hp]

theorem fold_substitute (s t : ParamSubst) (sig : S) :
    Signature.fold (substitute t) (Signature.fold (substitute s) sig) =
      Signature.fold (substitute (s.andThen t)) sig := by
  rw [Signature.fold_fold]
  congr 1
  funext ty
  exact substitute_substitute s t ty

/-- A length stays, and it stands inside no parameter. -/
theorem lengthsFree_of_closed (h : SubstitutionLemma binder args) : binder.LengthsFree := by
  intro i path inner p hat hp
  obtain ⟨before, after, arg, rfl, -, -, q, -, hq⟩ :=
    h.closed i path _ (typeAt_substitute hat) p hp rfl
  rw [typeAt_append hq] at hat
  cases after with
  | nil => cases hat
  | cons n after => cases hat

end Instantiate

namespace InstantiateExample

def own : GenericParam := .ast ⟨.type, ⟨0⟩, 0⟩

def length : GenericParam := .ast ⟨.const, ⟨0⟩, 1⟩

/-- A function of one parameter without bounds, under a type and a length. -/
def binder (param : Ty) (kind : param.WellKinded) : Binder FnSig where
  value := ⟨0, none, none, [param], .bool, ⟨[], .eligible⟩, .eligible, true, nofun⟩
  generics := [own, length]
  kinds ty hty := by
    obtain rfl | rfl : ty = param ∨ ty = .bool := by
      simpa [Signature.types, FnSig.types, CheckedParameterEnv.types] using hty
    · exact kind
    · exact Ty.wellKinded_of_children trivial nofun

theorem own_kind : (Ty.param own).WellKinded := Ty.wellKinded_of_children rfl nofun

theorem array_kind : (Ty.array (.param own) (.param length)).WellKinded :=
  Ty.wellKinded_of_children rfl fun _ hc => List.mem_singleton.mp hc ▸ own_kind

end InstantiateExample

end Sage
