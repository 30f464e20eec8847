import Sage.Check.Lowering
import Sage.Library.Demand

/-!
# Check — signatures of local traits

`LocalTraitSym::sig` of `local_syms/traits.rs` and `lower_predicates` of `check/trait_env.rs`.  A
signature asks each trait that it has a bound of for its own signature, and the queries have no
recovery from cycles.

* `lowerTraitRef`, `lowerBounds`, `lowerPredicates`, `sig`.
* `Bounded` — the trait of a bound of a trait.
* `unsupported_of_reaches` — a signature tells of the unsupported traits its bounds lead to.
* `Settles`, `sig_iff` — when a demand of a signature is answered.
-/

namespace Sage

def SolverEligibility.and (e e' : SolverEligibility) : SolverEligibility :=
  if e = .eligible ∧ e' = .eligible then .eligible else .unsupported

end Sage

namespace Sage.Check

open Library.Demand (Query)

/-! ### Declarations -/

inductive TypeBoundCst where
  | trait (path : Path) (args : List TypeCst)
  | lifetime (name : Name)

inductive GenericParamCst where
  | type (name : Name) (bounds : List TypeBoundCst) (default : Option TypeCst)
  | lifetime (name : Name)
  | const (name : Name) (ty : TypeCst)

namespace GenericParamCst

def kind : GenericParamCst → GenericParamKind
  | type .. => .type
  | lifetime _ => .lifetime
  | const .. => .const

def supported : GenericParamCst → Bool
  | type _ _ none | lifetime _ => true
  | type _ _ (some _) | const .. => false

end GenericParamCst

structure WhereClauseCst where
  subject : TypeCst
  bounds : List TypeBoundCst

structure TraitCst where
  generics : List GenericParamCst
  supertraits : List TypeBoundCst
  isAuto : Bool
  whereClauses : List WhereClauseCst

/-- A local trait, with the names in scope of its bounds. -/
structure LocalTrait where
  symbol : Symbol
  cst : TraitCst
  scope : TypeScope

/-- The traits of a crate, and of those it depends on. -/
structure Traits where
  trait : Nat → LocalTrait
  /-- The trait a symbol is, if it is one. -/
  traitOf : Symbol → Option TraitSymbol
  /-- `external_trait_signature`. -/
  external : Nat → Option TraitSignature
  /-- The local traits. -/
  ids : Finset Nat
  mem_ids : ∀ sym id, traitOf sym = some (.loc id) → id ∈ ids

/-! ### Bounds -/

def checkGenerics (parent : Symbol) (generics : List GenericParamCst) : List GenericParam :=
  generics.mapIdx fun i param => .ast ⟨param.kind, parent, i⟩

def solverSupportedGenerics (generics : List GenericParam) : SolverEligibility :=
  if generics.all fun generic => generic.kind ≠ .const then .eligible else .unsupported

/-- Constants and defaults are not supported. -/
def sourceGenericsSupported (generics : List GenericParamCst) : SolverEligibility :=
  if generics.all GenericParamCst.supported then .eligible else .unsupported

namespace Traits

variable (T : Traits)

def expectedArgs (id : Nat) : Nat :=
  ((T.trait id).cst.generics.filter fun generic => generic.kind = .type).length

/-- Only the arguments of local traits are counted. -/
def lowerTraitRef (Γ : TypeScope) (path : Path) (args : List TypeCst) :
    Lowered (Option TraitRef) := do
  let args ← TypeCst.checkAll Γ args
  match (Γ.resolve path).head? with
  | some (.sym sym) =>
      match T.traitOf sym with
      | some (.loc id) =>
          if args.length ≠ T.expectedArgs id then
            let _ ← Lowered.report ("trait expects " ++ toString (T.expectedArgs id) ++
              " type arguments, found " ++ toString args.length)
            return none
          else return some ⟨.loc id, args⟩
      | some (.ext id) => return some ⟨.ext id, args⟩
      | none =>
          let _ ← Lowered.report "expected a trait in type predicate"
          return none
  | some (.param _) | some (.selfTy _) | some (.loc _) | none =>
      let _ ← Lowered.report "unresolved trait in type predicate"
      return none

end Traits

/-- Predicates, with whether the solver supports them. -/
abbrev Bounds := List WherePredicate × SolverEligibility

namespace Traits

variable (T : Traits)

section Bounds

variable (eligibility : TraitSymbol → Query SolverEligibility) (Γ : TypeScope)

/-- Every bound that lowers asks its trait; lifetimes are no bounds on traits. -/
def lowerBounds (selfTy : Ty) : List TypeBoundCst → Query (Lowered Bounds)
  | [] => return (return ([], .eligible))
  | .lifetime _ :: bounds => lowerBounds selfTy bounds
  | .trait path args :: bounds => do
      let lowered := T.lowerTraitRef Γ path args
      match lowered.value with
      | some traitRef =>
          let supported ← eligibility traitRef.traitSym
          let rest ← lowerBounds selfTy bounds
          return do
            let _ ← lowered
            let (predicates, rest) ← rest
            return (⟨selfTy, traitRef⟩ :: predicates, supported.and rest)
      | none =>
          let rest ← lowerBounds selfTy bounds
          return do
            let _ ← lowered
            let (predicates, _) ← rest
            return (predicates, .unsupported)

/-- The bounds of types, one after the other. -/
def lowerGroups : List (Lowered Ty × List TypeBoundCst) → Query (Lowered Bounds)
  | [] => return (return ([], .eligible))
  | (selfTy, bounds) :: groups => do
      let first ← T.lowerBounds eligibility Γ selfTy.value bounds
      let rest ← lowerGroups groups
      return do
        let _ ← selfTy
        let (predicates, supported) ← first
        let (predicates', supported') ← rest
        return (predicates ++ predicates', supported.and supported')

end Bounds

/-- First the bounds on parameters, then those of the where clauses. -/
def groups (t : LocalTrait) : List (Lowered Ty × List TypeBoundCst) :=
  ((t.cst.generics.zip (checkGenerics t.symbol t.cst.generics)).filterMap fun (source, checked) =>
    match source with
    | .type _ bounds _ => some (return .param checked, bounds)
    | .lifetime _ | .const .. => none) ++
  t.cst.whereClauses.map fun clause => (clause.subject.check t.scope, clause.bounds)

def lowerPredicates (eligibility : TraitSymbol → Query SolverEligibility) (t : LocalTrait) :
    Query (Lowered Bounds) := do
  let bounds ← T.lowerGroups eligibility t.scope (groups t)
  return do
    let (predicates, supported) ← bounds
    return (predicates, ((solverSupportedGenerics (checkGenerics t.symbol t.cst.generics)).and
      (sourceGenericsSupported t.cst.generics)).and supported)

/-- What the types used on the way require is added last. -/
def completeParameterEnv (bounds : Lowered Bounds) : CheckedParameterEnv :=
  ⟨bounds.value.1 ++ bounds.environments.flatMap (·.whereClauses),
    (bounds.environments.map (·.solverEligibility)).foldl SolverEligibility.and bounds.value.2⟩

def localSig (eligibility : TraitSymbol → Query SolverEligibility) (t : LocalTrait) :
    Query (Lowered TraitSignature) := do
  let selfParam : GenericParam := .ast ⟨.type, t.symbol, 4294967295⟩
  let bounds ← T.lowerPredicates eligibility t
  let bounds : Lowered Bounds := do
    let (predicates, supported) ← bounds
    return (predicates,
      if t.cst.isAuto || !t.cst.supertraits.isEmpty then .unsupported else supported)
  let environment := completeParameterEnv bounds
  return ⟨⟨selfParam :: checkGenerics t.symbol t.cst.generics, selfParam,
    environment.whereClauses, environment.solverEligibility⟩, bounds.diagnostics,
    bounds.environments⟩

/-- `trait_ref_eligibility`: a trait without a signature is not supported. -/
def traitRefEligibility (demand : Nat → Query (Lowered TraitSignature)) :
    TraitSymbol → Query SolverEligibility
  | .loc id => do
      let signature ← demand id
      return signature.value.solverEligibility
  | .ext id => return ((T.external id).map (·.solverEligibility)).getD .unsupported

/-- `LocalTraitSym::sig`, with the queries in flight. -/
def sig : Nat → List Nat → Nat → Query (Lowered TraitSignature)
  | 0, _, _ => .unfinished
  | fuel + 1, active, id =>
      if id ∈ active then .cycle
      else T.localSig (T.traitRefEligibility (sig fuel (id :: active))) (T.trait id)

/-- A demand of the signature of a trait. -/
@[grind =] def signature (id : Nat) : Query (Lowered TraitSignature) := T.sig (T.ids.card + 2) [] id

def eligibility : TraitSymbol → Query SolverEligibility := T.traitRefEligibility T.signature

end Traits

/-! ### What a signature asks for -/

theorem SolverEligibility.and_eq_eligible {e e' : SolverEligibility} :
    e.and e' = .eligible ↔ e = .eligible ∧ e' = .eligible := by
  cases e <;> cases e' <;> simp [SolverEligibility.and]

theorem foldl_and_eq_eligible {es : List SolverEligibility} {e : SolverEligibility} :
    es.foldl SolverEligibility.and e = .eligible → e = .eligible := by
  induction es generalizing e with
  | nil => exact id
  | cons e' es ih => exact fun h => (SolverEligibility.and_eq_eligible.mp (ih h)).1

theorem Lowered.bind_value {α β : Type} (x : Lowered α) (f : α → Lowered β) :
    (x >>= f).value = (f x.value).value := rfl

@[simp] theorem Lowered.pure_value {α : Type} (a : α) : (pure a : Lowered α).value = a := rfl

theorem checkAll_length (Γ : TypeScope) (args : List TypeCst) :
    (TypeCst.checkAll Γ args).value.length = args.length := by
  induction args with
  | nil => rfl
  | cons arg args ih => exact congrArg (· + 1) ih

namespace Traits

variable (T : Traits)

/-- The path of a bound names a trait, with as many arguments as it takes. -/
def Names (Γ : TypeScope) (path : Path) (args : List TypeCst) (u : TraitSymbol) : Prop :=
  ∃ sym, (Γ.resolve path).head? = some (.sym sym) ∧ T.traitOf sym = some u ∧
    ∀ id, u = .loc id → args.length = T.expectedArgs id

theorem lowerTraitRef_eq_some_iff {Γ : TypeScope} {path : Path} {args : List TypeCst}
    {u : TraitSymbol} :
    (T.lowerTraitRef Γ path args).value.map (·.traitSym) = some u ↔ T.Names Γ path args u := by
  rw [Names, lowerTraitRef, Lowered.bind_value]
  cases hres : (Γ.resolve path).head? with
  | none => simp
  | some res =>
      cases res with
      | loc | param | selfTy => simp
      | sym sym =>
          have hnames : (∃ sym', some (Resolution.sym sym) = some (.sym sym') ∧
              T.traitOf sym' = some u ∧ ∀ id, u = .loc id → args.length = T.expectedArgs id) ↔
              T.traitOf sym = some u ∧ ∀ id, u = .loc id → args.length = T.expectedArgs id := by
            simp
          rw [hnames]
          cases htrait : T.traitOf sym with
          | none => simp [htrait]
          | some trait =>
              cases trait with
              | ext id =>
                  simp only [htrait, Lowered.pure_value, Option.map_some, Option.some.injEq]
                  refine ⟨fun h => ⟨h, fun j hj => ?_⟩, And.left⟩
                  rw [hj] at h
                  cases h
              | loc id =>
                  by_cases hlen : args.length = T.expectedArgs id
                  · simp only [htrait, checkAll_length, hlen, ne_eq, not_true, if_false,
                      Lowered.pure_value, Option.map_some, Option.some.injEq]
                    refine ⟨fun h => ⟨h, fun j hj => ?_⟩, And.left⟩
                    rw [hj] at h
                    cases h
                    rfl
                  · simp only [htrait, checkAll_length, ne_eq, hlen, not_false_eq_true, if_true]
                    refine ⟨nofun, fun h => ?_⟩
                    exact absurd (h.2 id (Option.some.inj h.1).symm) hlen

/-- The trait that a bound asks for. -/
def boundTrait (Γ : TypeScope) : TypeBoundCst → Option TraitSymbol
  | .trait path args => (T.lowerTraitRef Γ path args).value.map (·.traitSym)
  | .lifetime _ => none

def localId : TraitSymbol → Option Nat
  | .loc id => some id
  | .ext _ => none

/-- The local traits that bounds ask for, in order. -/
@[grind =] def asks (Γ : TypeScope) (bounds : List TypeBoundCst) : List Nat :=
  bounds.flatMap fun bound => ((T.boundTrait Γ bound).bind localId).toList

open Library.Demand (Asks)

theorem asks_traitRefEligibility (u : TraitSymbol) :
    Asks (localId u).toList (fun d => T.traitRefEligibility d u) := by
  cases u with
  | loc id => exact (Asks.ask id).map _
  | ext id => exact .pure _

theorem asks_lowerBounds (Γ : TypeScope) (selfTy : Ty) (bounds : List TypeBoundCst) :
    Asks (T.asks Γ bounds) (fun d => T.lowerBounds (T.traitRefEligibility d) Γ selfTy bounds) := by
  induction bounds with
  | nil => exact .pure _
  | cons bound bounds ih =>
      cases bound with
      | lifetime name => exact ih
      | trait path args =>
          rw [asks, List.flatMap_cons, boundTrait]
          simp only [lowerBounds]
          cases (T.lowerTraitRef Γ path args).value with
          | none => exact ih.map _
          | some traitRef =>
              exact (T.asks_traitRefEligibility traitRef.traitSym).bind fun supported => ih.map _

theorem asks_lowerGroups (Γ : TypeScope) (groups : List (Lowered Ty × List TypeBoundCst)) :
    Asks (T.asks Γ (groups.flatMap (·.2)))
      (fun d => T.lowerGroups (T.traitRefEligibility d) Γ groups) := by
  induction groups with
  | nil => exact .pure _
  | cons group groups ih =>
      rw [List.flatMap_cons, asks, List.flatMap_append]
      exact (T.asks_lowerBounds Γ group.1.value group.2).bind fun first => ih.map _

/-- The bounds of a trait, those of its parameters first. -/
def allBounds (t : LocalTrait) : List TypeBoundCst := (groups t).flatMap (·.2)

theorem asks_localSig (t : LocalTrait) :
    Asks (T.asks t.scope (allBounds t)) (fun d => T.localSig (T.traitRefEligibility d) t) :=
  ((T.asks_lowerGroups t.scope (groups t)).map _).map _

/-! ### Who has a bound on whom -/

/-- A bound that is written in the declaration of a trait. -/
def Writes (t : LocalTrait) (bound : TypeBoundCst) : Prop :=
  (∃ name bounds default, .type name bounds default ∈ t.cst.generics ∧ bound ∈ bounds) ∨
    ∃ clause ∈ t.cst.whereClauses, bound ∈ clause.bounds

/-- A trait has a bound on another. -/
def Bounded (t u : TraitSymbol) : Prop :=
  ∃ id path args, t = .loc id ∧ Writes (T.trait id) (.trait path args) ∧
    T.Names (T.trait id).scope path args u

theorem mem_allBounds {t : LocalTrait} {bound : TypeBoundCst} :
    bound ∈ allBounds t ↔ Writes t bound := by
  have hzip : (t.cst.generics.zip (checkGenerics t.symbol t.cst.generics)).map Prod.fst =
      t.cst.generics := List.map_fst_zip (by simp [checkGenerics])
  rw [allBounds, groups, List.flatMap_append, List.mem_append, Writes]
  refine or_congr ⟨fun h => ?_, ?_⟩ (by simp [List.mem_flatMap])
  · obtain ⟨group, hgroup, hbound⟩ := List.mem_flatMap.mp h
    obtain ⟨⟨source, checked⟩, hmem, heq⟩ := List.mem_filterMap.mp hgroup
    cases source with
    | lifetime name => cases heq
    | const name ty => cases heq
    | type name bounds default =>
        cases heq
        exact ⟨name, bounds, default, (List.of_mem_zip hmem).1, hbound⟩
  · rintro ⟨name, bounds, default, hmem, hbound⟩
    rw [← hzip] at hmem
    obtain ⟨⟨source, checked⟩, hmem, rfl⟩ := List.mem_map.mp hmem
    exact List.mem_flatMap.mpr ⟨_, List.mem_filterMap.mpr ⟨_, hmem, rfl⟩, hbound⟩

theorem bounded_loc_iff {id : Nat} {u : TraitSymbol} : T.Bounded (.loc id) u ↔
    ∃ bound ∈ allBounds (T.trait id), T.boundTrait (T.trait id).scope bound = some u := by
  constructor
  · rintro ⟨id', path, args, heq, hwrites, hnames⟩
    cases heq
    exact ⟨_, mem_allBounds.mpr hwrites, T.lowerTraitRef_eq_some_iff.mpr hnames⟩
  · rintro ⟨bound, hmem, hbound⟩
    cases bound with
    | lifetime name => cases hbound
    | trait path args =>
        exact ⟨id, path, args, rfl, mem_allBounds.mp hmem, T.lowerTraitRef_eq_some_iff.mp hbound⟩

/-- What the signature of a trait asks for. -/
def deps (id : Nat) : List Nat := T.asks (T.trait id).scope (allBounds (T.trait id))

theorem mem_deps {id other : Nat} : other ∈ T.deps id ↔ T.Bounded (.loc id) (.loc other) := by
  rw [bounded_loc_iff, deps, asks, List.mem_flatMap]
  refine exists_congr fun bound => and_congr_right fun _ => ?_
  rw [Option.mem_toList, Option.bind_eq_some_iff]
  constructor
  · rintro ⟨u, hu, hlocal⟩
    cases u with
    | ext => cases hlocal
    | loc id => exact Option.some.inj hlocal ▸ hu
  · exact fun h => ⟨_, h, rfl⟩

open Relation Library.Demand in
theorem reflTransGen_deps {id other : Nat} : ReflTransGen (Dep T.deps) id other ↔
    ReflTransGen T.Bounded (.loc id) (.loc other) := by
  constructor
  · intro h
    exact h.lift TraitSymbol.loc fun i j hij => T.mem_deps.mp hij
  · intro h
    generalize hu : TraitSymbol.loc other = u at h
    induction h generalizing other with
    | refl =>
        cases hu
        exact .refl
    | tail hreach hlast ih =>
        subst hu
        obtain ⟨mid, path, args, rfl, hrest⟩ := hlast
        exact (ih rfl).tail (T.mem_deps.mpr ⟨mid, path, args, rfl, hrest⟩)

open Relation Library.Demand in
theorem transGen_deps {id : Nat} : TransGen (Dep T.deps) id id ↔
    TransGen T.Bounded (.loc id) (.loc id) := by
  rw [TransGen.tail'_iff, TransGen.tail'_iff]
  constructor
  · rintro ⟨mid, hreach, hlast⟩
    exact ⟨.loc mid, T.reflTransGen_deps.mp hreach, T.mem_deps.mp hlast⟩
  · rintro ⟨t, hreach, hlast⟩
    obtain ⟨mid, path, args, rfl, hrest⟩ := hlast
    exact ⟨mid, T.reflTransGen_deps.mpr hreach, T.mem_deps.mpr ⟨mid, path, args, rfl, hrest⟩⟩

/-! ### Eligibility -/

section Eligible

variable {query : TraitSymbol → Query SolverEligibility} {Γ : TypeScope}

open Library.Demand.Query in
theorem lowerBounds_eligible {selfTy : Ty} {bounds : List TypeBoundCst} {r : Lowered Bounds}
    (h : T.lowerBounds query Γ selfTy bounds = .done r) (heligible : r.value.2 = .eligible) :
    ∀ bound ∈ bounds, ∀ u, T.boundTrait Γ bound = some u → query u = .done .eligible := by
  induction bounds generalizing r with
  | nil => nofun
  | cons bound bounds ih =>
      intro bound' hmem u hu
      obtain rfl | htail := List.mem_cons.mp hmem
      · cases bound' with
        | lifetime name => cases hu
        | trait path args =>
            rw [boundTrait, Option.map_eq_some_iff] at hu
            obtain ⟨traitRef, hvalue, rfl⟩ := hu
            simp only [lowerBounds, hvalue, bind_eq_done] at h
            obtain ⟨supported, hsupported, rest, -, h⟩ := h
            cases h
            rw [hsupported, (SolverEligibility.and_eq_eligible.mp heligible).1]
      · cases bound with
        | lifetime name => exact ih h heligible bound' htail u hu
        | trait path args =>
            simp only [lowerBounds] at h
            cases hvalue : (T.lowerTraitRef Γ path args).value with
            | none =>
                simp only [hvalue, bind_eq_done] at h
                obtain ⟨rest, -, h⟩ := h
                cases h
                cases heligible
            | some traitRef =>
                simp only [hvalue, bind_eq_done] at h
                obtain ⟨supported, -, rest, hrest, h⟩ := h
                cases h
                exact ih hrest (SolverEligibility.and_eq_eligible.mp heligible).2 bound' htail u hu

open Library.Demand.Query in
theorem lowerGroups_eligible {groups : List (Lowered Ty × List TypeBoundCst)} {r : Lowered Bounds}
    (h : T.lowerGroups query Γ groups = .done r) (heligible : r.value.2 = .eligible) :
    ∀ bound ∈ groups.flatMap (·.2), ∀ u, T.boundTrait Γ bound = some u →
      query u = .done .eligible := by
  induction groups generalizing r with
  | nil => nofun
  | cons group groups ih =>
      intro bound hmem u hu
      simp only [lowerGroups, bind_eq_done] at h
      obtain ⟨first, hfirst, rest, hrest, h⟩ := h
      cases h
      obtain ⟨hfirst', hrest'⟩ := SolverEligibility.and_eq_eligible.mp heligible
      rw [List.flatMap_cons, List.mem_append] at hmem
      obtain hmem | hmem := hmem
      · exact T.lowerBounds_eligible hfirst hfirst' bound hmem u hu
      · exact ih hrest hrest' bound hmem u hu

open Library.Demand.Query in
theorem localSig_eligible {t : LocalTrait} {r : Lowered TraitSignature}
    (h : T.localSig query t = .done r) (heligible : r.value.solverEligibility = .eligible) :
    ∀ bound ∈ allBounds t, ∀ u, T.boundTrait t.scope bound = some u →
      query u = .done .eligible := by
  simp only [localSig, lowerPredicates, bind_eq_done] at h
  obtain ⟨bounds, ⟨first, hfirst, hbounds⟩, h⟩ := h
  cases hbounds
  cases h
  refine T.lowerGroups_eligible hfirst ?_
  -- Neither what is added last nor a supertrait makes the bounds eligible.
  have hsupported := foldl_and_eq_eligible heligible
  simp only [Lowered.bind_value, Lowered.pure_value] at hsupported
  split_ifs at hsupported
  exact (SolverEligibility.and_eq_eligible.mp hsupported).2

end Eligible

/-! ### Evaluation -/

open Library.Demand

theorem sig_eq_eval : ∀ (fuel : Nat) (active : List Nat) (id : Nat), T.sig fuel active id =
    eval (fun id d => T.localSig (T.traitRefEligibility d) (T.trait id)) fuel active id
  | 0, _, _ => rfl
  | fuel + 1, active, id => by
      have hrec : T.sig fuel (id :: active) = eval _ fuel (id :: active) :=
        funext fun other => sig_eq_eval fuel (id :: active) other
      rw [sig, eval, hrec]

theorem asks_body (id : Nat) :
    Asks (T.deps id) (fun d => T.localSig (T.traitRefEligibility d) (T.trait id)) :=
  T.asks_localSig (T.trait id)

/-- The traits a signature can ask for. -/
theorem mem_ids_of_bounded {t : TraitSymbol} {other : Nat} (h : T.Bounded t (.loc other)) :
    other ∈ T.ids := by
  obtain ⟨-, -, -, -, -, sym, -, htrait, -⟩ := h
  exact T.mem_ids sym other htrait

theorem unsupported_of_bounded {id : Nat} {u : TraitSymbol} {r : Lowered TraitSignature}
    (h : T.signature id = .done r) (hu : T.Bounded (.loc id) u)
    (hunsupported : T.eligibility u = .done .unsupported) :
    r.value.solverEligibility = .unsupported := by
  rw [signature, sig_eq_eval] at h
  have hvalue := eval_value T.asks_body h
  have hsig : eval (fun id d => T.localSig (T.traitRefEligibility d) (T.trait id))
      (T.ids.card + 2) [] = T.signature :=
    funext fun other => (T.sig_eq_eval (T.ids.card + 2) [] other).symm
  rw [hsig] at hvalue
  by_contra hne
  have heligible : r.value.solverEligibility = .eligible := by
    cases hr : r.value.solverEligibility with
    | eligible => rfl
    | unsupported => exact absurd hr hne
  obtain ⟨bound, hmem, hbound⟩ := T.bounded_loc_iff.mp hu
  have := T.localSig_eligible hvalue heligible bound hmem u hbound
  rw [eligibility] at hunsupported
  rw [this] at hunsupported
  cases hunsupported

theorem unsupported_of_reaches {id : Nat} {u : TraitSymbol} {r : Lowered TraitSignature}
    (h : T.signature id = .done r) (hreach : Relation.TransGen T.Bounded (.loc id) u)
    (hunsupported : T.eligibility u = .done .unsupported) :
    r.value.solverEligibility = .unsupported := by
  generalize ht : TraitSymbol.loc id = t at hreach
  induction hreach using Relation.TransGen.head_induction_on generalizing id r with
  | single hlast =>
      subst ht
      exact T.unsupported_of_bounded h hlast hunsupported
  | @head t mid hfirst hrest ih =>
      subst ht
      refine T.unsupported_of_bounded h hfirst ?_
      -- The bound leads on, so its trait is local; what was asked for it has an answer.
      obtain ⟨next, hnext, -⟩ := Relation.TransGen.head'_iff.mp hrest
      obtain ⟨other, path, args, rfl, -⟩ := hnext
      rw [signature, sig_eq_eval] at h
      have hvalue := eval_value T.asks_body h
      obtain ⟨r', hr'⟩ := (T.asks_body id).asked _ _ hvalue other (T.mem_deps.mpr hfirst)
      rw [← sig_eq_eval] at hr'
      rw [eligibility, traitRefEligibility, signature, hr', Query.done_bind,
        ih (show T.signature other = .done r' from hr') rfl]
      rfl

/-- A demand of the signature is answered, and the answer tells of each unsupported trait that the
bounds lead to. -/
def Settles (id : Nat) : Prop :=
  ∃ result, T.signature id = .done result ∧
    ∀ u, Relation.TransGen T.Bounded (.loc id) u → T.eligibility u = .done .unsupported →
      result.value.solverEligibility = .unsupported

/-- A demand of a signature ends.  It is answered exactly if the bounds do not lead to a trait that
has a bound on itself or leads back to itself; otherwise it ends in a cycle. -/
theorem sig_iff (id : Nat) : T.signature id ≠ .unfinished ∧
    (T.Settles id ↔
      ∀ u, Relation.ReflTransGen T.Bounded (.loc id) u → ¬ Relation.TransGen T.Bounded u u) := by
  have hS : ∀ k ∈ insert id T.ids, ∀ j ∈ T.deps k, j ∈ insert id T.ids :=
    fun k _ j hj => Finset.mem_insert_of_mem (T.mem_ids_of_bounded (T.mem_deps.mp hj))
  have hcard : (insert id T.ids).card < T.ids.card + 2 :=
    Nat.lt_succ_of_le (Finset.card_insert_le _ _)
  have hacyclic : (∀ j, Relation.ReflTransGen (Dep T.deps) id j →
      ¬ Relation.TransGen (Dep T.deps) j j) ↔
      ∀ u, Relation.ReflTransGen T.Bounded (.loc id) u → ¬ Relation.TransGen T.Bounded u u := by
    constructor
    · intro h u hreach hcycle
      -- Only local traits have bounds.
      obtain ⟨next, hnext, -⟩ := Relation.TransGen.head'_iff.mp hcycle
      obtain ⟨other, path, args, rfl, -⟩ := hnext
      exact h other (T.reflTransGen_deps.mpr hreach) (T.transGen_deps.mpr hcycle)
    · exact fun h j hreach hcycle =>
        h _ (T.reflTransGen_deps.mp hreach) (T.transGen_deps.mp hcycle)
  have hdone := eval_done_iff T.asks_body hS (Finset.mem_insert_self id T.ids) hcard
  rw [← sig_eq_eval, hacyclic] at hdone
  refine ⟨?_, ?_⟩
  · rw [signature, sig_eq_eval]
    exact eval_ends T.asks_body hS _ [] id (Finset.mem_insert_self id T.ids)
      ((Finset.card_filter_le _ _).trans_lt hcard)
  · rw [← hdone, Settles]
    constructor
    · rintro ⟨result, h, -⟩
      exact ⟨result, h⟩
    · rintro ⟨result, h⟩
      exact ⟨result, h, fun u => T.unsupported_of_reaches h⟩

/-- `trait Tr<T: Tr<T>> {}`. -/
def selfBound : Traits where
  trait _ :=
    { symbol := ⟨0⟩
      cst :=
        { generics :=
            [.type "T" [.trait (.relative "Tr" []) [.path (.relative "T" []) []]] none]
          supertraits := []
          isAuto := false
          whereClauses := [] }
      scope :=
        { resolve := fun path =>
            if path = .relative "Tr" [] then [.sym ⟨0⟩]
            else if path = .relative "T" [] then [.param (.ast ⟨.type, ⟨0⟩, 0⟩)]
            else []
          data := fun _ => .trait } }
  traitOf sym := if sym = ⟨0⟩ then some (.loc 0) else none
  external _ := none
  ids := {0}
  mem_ids sym id h := by
    split_ifs at h
    cases h
    exact Finset.mem_singleton_self 0

/-- The trait is asked for its signature while the signature is computed. -/
theorem selfBound_not_settled : selfBound.signature 0 = .cycle ∧ ¬ selfBound.Settles 0 :=
  ⟨rfl, by rintro ⟨result, h, -⟩; cases h⟩

end Traits

end Sage.Check
