import Sage.Library.Worklist
import Sage.Solve.Boundary

/-!
# Solve — assumptions with what they imply

`infer_ctx.rs`.  The predicates that a body may assume are completed with the bounds of their
traits, instantiated for each predicate.  Only signatures that the solver supports are opened, and
the result says whether all of them were.

* `bounds` — what a predicate adds.
* `elaborateWithin`, `elaborateSolverPredicates` — the loop.
* `elaborate_exact` — what it returns, where finitely many predicates can be reached.
-/

namespace Sage

inductive SolverEligibility where
  | eligible
  | unsupported
deriving DecidableEq

/-- The binder of a trait with its data. -/
structure TraitSignature where
  generics : List GenericParam
  selfParam : GenericParam
  whereClauses : List WherePredicate
  solverEligibility : SolverEligibility

structure CheckedParameterEnv where
  whereClauses : List WherePredicate
  solverEligibility : SolverEligibility

namespace IrCopier

def copyTraitRef (mapping : TypeMapping) (traitRef : TraitRef) : TraitRef :=
  ⟨traitRef.traitSym, traitRef.args.map (copyTy mapping fun _ => none)⟩

def copyPredicate (mapping : TypeMapping) (predicate : WherePredicate) : WherePredicate :=
  ⟨copyTy mapping (fun _ => none) predicate.selfTy, copyTraitRef mapping predicate.traitRef⟩

end IrCopier

/-- The arguments of a predicate for the parameters of its trait. -/
def TraitSignature.mapping (signature : TraitSignature) (predicate : WherePredicate) :
    TypeMapping :=
  let generics := signature.generics.filter fun generic =>
    generic ≠ signature.selfParam ∧ generic.kind = .type
  (generics.zip predicate.traitRef.args).foldl
    (fun mapping row => Function.update mapping row.1 (some row.2))
    (Function.update (fun _ => none) signature.selfParam (some predicate.selfTy))

/-- The bounds of a trait for a predicate. -/
def TraitSignature.instances (signature : TraitSignature) (predicate : WherePredicate) :
    List WherePredicate :=
  signature.whereClauses.map (IrCopier.copyPredicate (signature.mapping predicate))

section Elaborate

variable (sig : TraitSymbol → Option TraitSignature)

/-- What a predicate adds, if its trait has a signature that the solver supports. -/
def bounds (predicate : WherePredicate) : Option (List WherePredicate) :=
  match sig predicate.traitRef.traitSym with
  | none => none
  | some signature =>
      if signature.solverEligibility = .eligible then some (signature.instances predicate)
      else none

/-- The queue is popped from its end, which is the head here; so is the end of the output, which
is also what was seen. -/
def elaborateWithin : Nat → List WherePredicate → List WherePredicate → Bool →
    Option (List WherePredicate × Bool)
  | 0, _, _, _ => none
  | _ + 1, [], output, complete => some (output, complete)
  | fuel + 1, predicate :: queue, output, complete =>
      if predicate ∈ output then elaborateWithin fuel queue output complete
      else
        match bounds sig predicate with
        | none => elaborateWithin fuel queue (predicate :: output) false
        | some defining =>
            elaborateWithin fuel (defining.reverse ++ queue) (predicate :: output) complete

def elaborateSolverPredicates (fuel : Nat) (environment : CheckedParameterEnv) :
    Option (List WherePredicate × Bool) :=
  elaborateWithin sig fuel environment.whereClauses.reverse []
    (environment.solverEligibility = .eligible)

/-! ### Closure -/

/-- An assumption, or a bound of a predicate that is reached. -/
inductive Implied (bounds : WherePredicate → Option (List WherePredicate))
    (assumed : List WherePredicate) : WherePredicate → Prop where
  | assumed {p : WherePredicate} : p ∈ assumed → Implied bounds assumed p
  | bound {p q : WherePredicate} {defining : List WherePredicate} :
      Implied bounds assumed p → bounds p = some defining → q ∈ defining →
        Implied bounds assumed q

variable {sig}

/-- The loop is the closure of its stack, with a flag beside it. -/
theorem elaborateWithin_eq (fuel : Nat) (queue output : List WherePredicate) (start : Bool) :
    elaborateWithin sig fuel queue output (start && output.all fun p => (bounds sig p).isSome) =
      (Worklist.run (fun p => (bounds sig p).getD []) fuel queue output).map fun result =>
        (result, start && result.all fun p => (bounds sig p).isSome) := by
  induction fuel generalizing queue output with
  | zero => rfl
  | succ fuel ih =>
      cases queue with
      | nil => rfl
      | cons predicate queue =>
          rw [elaborateWithin, Worklist.run]
          by_cases hseen : predicate ∈ output
          · rw [if_pos hseen, if_pos hseen, ih]
          · rw [if_neg hseen, if_neg hseen, ← ih]
            cases hbounds : bounds sig predicate with
            | none => simp [hbounds]
            | some defining => simp [hbounds]

theorem implied_iff {assumed : List WherePredicate} {p : WherePredicate} :
    Implied (bounds sig) assumed p ↔
      Worklist.Reached (fun p => (bounds sig p).getD []) assumed p := by
  constructor
  · intro h
    induction h with
    | assumed h => exact .root h
    | bound _ hbounds hmem ih => exact .next ih (by rw [hbounds]; exact hmem)
  · intro h
    induction h with
    | root h => exact .assumed h
    | @next p q _ hmem ih =>
        cases hbounds : bounds sig p with
        | none => rw [hbounds] at hmem; cases hmem
        | some defining =>
            rw [hbounds] at hmem
            exact .bound ih hbounds hmem

theorem elaborate_eq (fuel : Nat) (environment : CheckedParameterEnv) :
    elaborateSolverPredicates sig fuel environment =
      (Worklist.run (fun p => (bounds sig p).getD []) fuel environment.whereClauses.reverse
        []).map fun result => (result, decide (environment.solverEligibility = .eligible) &&
          result.all fun p => (bounds sig p).isSome) := by
  have h := @elaborateWithin_eq sig fuel environment.whereClauses.reverse []
    (decide (environment.solverEligibility = .eligible))
  rw [List.all_nil, Bool.and_true] at h
  exact h

/-- Also, it ends only then. -/
theorem finite_of_elaborate {fuel : Nat} {environment : CheckedParameterEnv}
    {result : List WherePredicate × Bool}
    (h : elaborateSolverPredicates sig fuel environment = some result) :
    {p | Implied (bounds sig) environment.whereClauses p}.Finite := by
  rw [elaborate_eq, Option.map_eq_some_iff] at h
  obtain ⟨_, hrun, -⟩ := h
  exact (Worklist.finite_of_run hrun).subset fun p hp => implied_iff.mp hp

end Elaborate

/-- Where finitely many predicates are implied over supported signatures, elaboration ends, and
whatever it returns are these predicates, each once, with the flag that none was left unopened. -/
theorem elaborate_exact (sig : TraitSymbol → Option TraitSignature)
    (environment : CheckedParameterEnv)
    (hfinite : {p | Implied (bounds sig) environment.whereClauses p}.Finite) :
    (∃ fuel result, elaborateSolverPredicates sig fuel environment = some result) ∧
      ∀ fuel predicates complete,
        elaborateSolverPredicates sig fuel environment = some (predicates, complete) →
          predicates.Nodup ∧
          (∀ p, p ∈ predicates ↔ Implied (bounds sig) environment.whereClauses p) ∧
          (complete = true ↔ environment.solverEligibility = .eligible ∧
            ∀ p ∈ predicates, ∃ signature, sig p.traitRef.traitSym = some signature ∧
              signature.solverEligibility = .eligible) := by
  have hreached : {p | Worklist.Reached (fun p => (bounds sig p).getD [])
      environment.whereClauses p}.Finite := hfinite.subset fun p hp => implied_iff.mpr hp
  constructor
  · obtain ⟨fuel, result, hrun⟩ := Worklist.run_ends hreached
    exact ⟨fuel, _, by rw [elaborate_eq, hrun]; rfl⟩
  · intro fuel predicates complete h
    rw [elaborate_eq, Option.map_eq_some_iff] at h
    obtain ⟨result, hrun, heq⟩ := h
    cases heq
    obtain ⟨hnodup, hmem⟩ := Worklist.run_eq_some hrun
    refine ⟨hnodup, fun p => (hmem p).trans implied_iff.symm, ?_⟩
    rw [Bool.and_eq_true, decide_eq_true_eq, List.all_eq_true]
    refine and_congr Iff.rfl (forall₂_congr fun p _ => ?_)
    rw [bounds]
    cases hsig : sig p.traitRef.traitSym with
    | none => simp
    | some signature =>
        by_cases heligible : signature.solverEligibility = .eligible <;> simp [heligible]

/-! ### Examples -/

namespace ElaborateExample

def selfParam : GenericParam := .ext ⟨.type, ⟨0⟩, 0⟩

def typeParam : GenericParam := .ext ⟨.type, ⟨0⟩, 1⟩

/-- `bool: Trait` for a trait without parameters. -/
def holds (traitSym : TraitSymbol) : WherePredicate := ⟨.bool, ⟨traitSym, []⟩⟩

/-- Two traits with a bound each on the other. -/
def cyclic : TraitSymbol → Option TraitSignature
  | .ext 0 => some ⟨[selfParam], selfParam, [⟨.param selfParam, ⟨.ext 1, []⟩⟩], .eligible⟩
  | .ext 1 => some ⟨[selfParam], selfParam, [⟨.param selfParam, ⟨.ext 0, []⟩⟩], .eligible⟩
  | _ => none

theorem cyclic_finite : {p | Implied (bounds cyclic) [holds (.ext 0)] p}.Finite := by
  refine Set.Finite.subset (Set.toFinite {holds (.ext 0), holds (.ext 1)}) ?_
  intro p hp
  induction hp with
  | assumed hp => exact .inl (List.mem_singleton.mp hp)
  | bound _ hbounds hq ih =>
      obtain rfl | rfl := ih
      · obtain rfl := Option.some.inj (hbounds.symm.trans (rfl : bounds cyclic _ =
          some [holds (.ext 1)]))
        exact .inr (List.mem_singleton.mp hq)
      · obtain rfl := Option.some.inj (hbounds.symm.trans (rfl : bounds cyclic _ =
          some [holds (.ext 0)]))
        exact .inl (List.mem_singleton.mp hq)

theorem elaborate_cyclic : (∃ fuel result,
    elaborateSolverPredicates cyclic fuel ⟨[holds (.ext 0)], .eligible⟩ = some result) ∧
      ∀ fuel predicates complete, elaborateSolverPredicates cyclic fuel
        ⟨[holds (.ext 0)], .eligible⟩ = some (predicates, complete) →
          predicates.Nodup ∧
          (∀ p, p ∈ predicates ↔ Implied (bounds cyclic) [holds (.ext 0)] p) ∧
          (complete = true ↔ SolverEligibility.eligible = .eligible ∧
            ∀ p ∈ predicates, ∃ signature, cyclic p.traitRef.traitSym = some signature ∧
              signature.solverEligibility = .eligible) :=
  elaborate_exact cyclic ⟨[holds (.ext 0)], .eligible⟩ cyclic_finite

/-- `trait Tr<T> where Self: Tr<Vec<T>>`. -/
def growing : TraitSymbol → Option TraitSignature
  | .ext 0 => some ⟨[selfParam, typeParam], selfParam,
      [⟨.param selfParam, ⟨.ext 0, [.adt ⟨1⟩ [.param typeParam]]⟩⟩], .eligible⟩
  | _ => none

def nested : Nat → Ty
  | 0 => .bool
  | n + 1 => .adt ⟨1⟩ [nested n]

theorem nested_injective : Function.Injective nested := by
  intro m n h
  induction m generalizing n with
  | zero => cases n with
    | zero => rfl
    | succ n => cases h
  | succ m ih => cases n with
    | zero => cases h
    | succ n =>
        simp only [nested, Ty.adt.injEq, List.cons.injEq, and_true, true_and] at h
        rw [ih h]

def grown (n : Nat) : WherePredicate := ⟨.bool, ⟨.ext 0, [nested n]⟩⟩

theorem bounds_grown (n : Nat) : bounds growing (grown n) = some [grown (n + 1)] := rfl

theorem implied_grown (n : Nat) : Implied (bounds growing) [grown 0] (grown n) := by
  induction n with
  | zero => exact .assumed (List.mem_singleton_self _)
  | succ n ih => exact .bound ih (bounds_grown n) (List.mem_singleton_self _)

theorem growing_infinite : {p | Implied (bounds growing) [grown 0] p}.Infinite := by
  refine Set.infinite_of_injective_forall_mem (f := grown) ?_ implied_grown
  intro m n h
  simp only [grown, WherePredicate.mk.injEq, TraitRef.mk.injEq, List.cons.injEq, and_true,
    true_and] at h
  exact nested_injective h

/-- `trait A<const N: usize> where Self: B`, which the solver does not support. -/
def gated : TraitSymbol → Option TraitSignature
  | .loc 0 => some ⟨[selfParam, .ast ⟨.const, ⟨0⟩, 0⟩], selfParam,
      [⟨.param selfParam, ⟨.loc 1, []⟩⟩], .unsupported⟩
  | _ => none

theorem bounds_gated (p : WherePredicate) : bounds gated p = none := by
  rw [bounds]
  generalize p.traitRef.traitSym = traitSym
  match traitSym with
  | .loc 0 => rfl
  | .loc (_ + 1) => rfl
  | .ext _ => rfl

/-- The bounds that are declared, supported or not. -/
def declared (sig : TraitSymbol → Option TraitSignature) (predicate : WherePredicate) :
    Option (List WherePredicate) :=
  (sig predicate.traitRef.traitSym).map (·.instances predicate)

/-- Growing bounds are never finished, and an unsupported signature is not opened. -/
theorem elaborate_not_exact :
    (∀ fuel, elaborateSolverPredicates growing fuel ⟨[grown 0], .eligible⟩ = none) ∧
      (∀ fuel predicates complete, elaborateSolverPredicates gated fuel
        ⟨[holds (.loc 0)], .eligible⟩ = some (predicates, complete) →
          holds (.loc 1) ∉ predicates) ∧
      Implied (declared gated) [holds (.loc 0)] (holds (.loc 1)) := by
  refine ⟨fun fuel => ?_, fun fuel predicates complete h => ?_, ?_⟩
  · cases h : elaborateSolverPredicates growing fuel ⟨[grown 0], .eligible⟩ with
    | none => rfl
    | some result => exact absurd (finite_of_elaborate h) growing_infinite
  · -- nothing is added to what is assumed
    rw [elaborate_eq, Option.map_eq_some_iff] at h
    obtain ⟨result, hrun, heq⟩ := h
    cases heq
    intro hmem
    cases implied_iff.mpr (((Worklist.run_eq_some hrun).2 _).mp hmem) with
    | assumed h => exact absurd h (by decide)
    | @bound p _ _ _ hbounds _ =>
        cases (bounds_gated p).symm.trans hbounds
  · exact .bound (.assumed (List.mem_singleton_self _)) rfl (List.mem_singleton_self _)

end ElaborateExample

end Sage
