import Sage.Infer.Version
import Sage.Syntax.Skeleton

/-!
# Inference — what the recorded constraints mean

The abstract side of the union-find: a `Store` is an idempotent substitution, the *resolution*
of every variable, with a domain and a universe ceiling for the variables it leaves unresolved.
A *solution* assigns a type to every variable so that it factors through the resolution and
gives each unresolved variable a type of its domain that names nothing above its ceiling.  The
types a solution assigns may themselves mention variables; `Restrictions` says what those are
restricted to.  Solutions assign error-free types.

* `Store.solution_self` — the resolution is a solution, the most general one by definition.
* `Store.exists_ground` — every store has a solution without variables.
* `Store.bind_solution`, `Store.link_solution` — binding a variable to a type, or linking two
  variables, keeps exactly the solutions of the new equality.
-/

namespace Sage

/-- What the variables of a solution's types are restricted to. -/
structure Restrictions where
  domain : InferVarIndex → InferDomain
  ceiling : InferVarIndex → Universe

/-- The placeholder a skeleton names. -/
def Skeleton.placeholder : Skeleton → Option GenericParam
  | .param p => some p
  | .array (.param p) => some p
  | _ => none

/-- A skeleton that names placeholders of universes up to `u` only. -/
def Skeleton.Below (U : GenericParam → Universe) (u : Universe) (s : Skeleton) : Prop :=
  ∀ param, s.placeholder = some param → U param ≤ u

/-- A skeleton other than the error type that names placeholders of universes up to `u` only. -/
def Skeleton.Accessible (U : GenericParam → Universe) (u : Universe) (s : Skeleton) :
    Prop :=
  (∀ e, s ≠ .error e) ∧ s.Below U u

section Admissible

variable (U : GenericParam → Universe) (Γ : Restrictions)

/-- An error-free type that names nothing above the universe `u`. -/
@[grind =] def Ty.Accessible (u : Universe) (t : Ty) : Prop :=
  t.All (Skeleton.Accessible U u) fun y => Γ.ceiling y ≤ u

/-- A type of the domain `d`: rigid and admitted, or a variable whose domain is as narrow. -/
@[grind =] def InferDomain.Contains (d : InferDomain) : Ty → Prop
  | .inferVar y => d.intersect (Γ.domain y) = some (Γ.domain y)
  | t => d.admits t = true

variable {U Γ}

theorem Ty.Accessible.mono {u u' : Universe} (h : u ≤ u') {t : Ty}
    (ht : t.Accessible U Γ u) : t.Accessible U Γ u' :=
  Ty.All.imp ht (fun _ hs => ⟨hs.1, fun param hp => Nat.le_trans (hs.2 param hp) h⟩)
    fun _ _ hy => Nat.le_trans hy h

theorem InferDomain.contains_iff {d : InferDomain} {t : Ty} (h : t.Rigid) :
    d.Contains Γ t ↔ d.admits t = true := by
  cases t <;> first | rfl | exact h.elim

/-- A domain looks at the head of a rigid type only. -/
theorem InferDomain.admits_subst (d : InferDomain) {t : Ty} (h : t.Rigid)
    (θ : InferVarIndex → Ty) : d.admits (t.subst θ) = d.admits t := by
  cases t <;> first | exact h.elim | cases d <;> simp [Ty.subst, Ty.foldLeaves, admits]

theorem InferDomain.intersect_self (d : InferDomain) : d.intersect d = some d := by
  cases d <;> rfl

/-- Two domains with a common error-free member have an intersection, which it belongs to. -/
theorem InferDomain.contains_inter {d d' : InferDomain} {t : Ty} (ht : ∀ e, t ≠ .error e)
    (h : d.Contains Γ t) (h' : d'.Contains Γ t) :
    ∃ m, d.intersect d' = some m ∧ m.Contains Γ t := by
  rcases t.rigid_or_var with hr | ⟨y, rfl⟩
  · rw [contains_iff hr] at h h'
    cases d <;> cases d' <;> simp only [intersect, Option.some.injEq, exists_eq_left',
      contains_iff hr, h, h', reduceCtorEq, false_and, exists_false]
    all_goals
      cases t with
      | error e => exact absurd rfl (ht e)
      | _ => simp_all [admits]
  · simp only [Contains] at h h' ⊢
    revert h h'
    generalize Γ.domain y = e
    cases d <;> cases d' <;> cases e <;> simp [intersect]

theorem InferDomain.Contains.of_intersect {d d' m : InferDomain} (hm : d.intersect d' = some m)
    {t : Ty} (h : m.Contains Γ t) : d.Contains Γ t ∧ d'.Contains Γ t := by
  rcases t.rigid_or_var with hr | ⟨y, rfl⟩
  · rw [contains_iff hr] at h ⊢
    rw [contains_iff hr]
    revert hm h
    cases d <;> cases d' <;> simp only [intersect, Option.some.injEq, reduceCtorEq,
      IsEmpty.forall_iff] <;> rintro rfl h <;> simp_all [admits]
  · simp only [Contains] at h ⊢
    revert hm h
    generalize Γ.domain y = e
    cases d <;> cases d' <;> cases e <;> cases m <;> simp [intersect]

end Admissible

/-- A type without an error type in it. -/
def Ty.ErrorFree (t : Ty) : Prop := t.All (fun s => ∀ e, s ≠ .error e) fun _ => True

/-- The two halves of accessibility. -/
theorem Ty.all_accessible_iff {U : GenericParam → Universe} {u : Universe} {t : Ty} :
    t.All (Skeleton.Accessible U u) (fun _ => True) ↔
      t.ErrorFree ∧ t.All (Skeleton.Below U u) fun _ => True :=
  ⟨fun h => ⟨h.imp (fun _ => And.left) fun _ _ => id, h.imp (fun _ => And.right) fun _ _ => id⟩,
    fun h => Terms.Term.All.and h.1 h.2⟩

theorem Ty.Accessible.errorFree {U : GenericParam → Universe} {Γ : Restrictions} {u : Universe}
    {t : Ty} (h : t.Accessible U Γ u) : t.ErrorFree :=
  Ty.All.imp h (fun _ hs => hs.1) fun _ _ _ => trivial

/-- An idempotent resolution, with the restrictions of the variables it leaves unresolved. -/
structure Store where
  resolve : InferVarIndex → Ty
  restrictions : Restrictions
  idempotent : ∀ x, (resolve x).subst resolve = resolve x

namespace Store

variable (S : Store) (U : GenericParam → Universe)

def Unresolved (x : InferVarIndex) : Prop := S.resolve x = .inferVar x

/-- `θ` solves the constraints of the store. -/
structure Solution (Γ : Restrictions) (θ : InferVarIndex → Ty) : Prop where
  factors : ∀ x, (S.resolve x).subst θ = θ x
  contains : ∀ x, S.Unresolved x → (S.restrictions.domain x).Contains Γ (θ x)
  accessible : ∀ x, S.Unresolved x →
    (θ x).Accessible U Γ (S.restrictions.ceiling x)

variable {S U} {Γ : Restrictions} {θ : InferVarIndex → Ty} {x y : InferVarIndex} {t : Ty}

theorem subst_resolve_resolve (t : Ty) :
    (t.subst S.resolve).subst S.resolve = t.subst S.resolve := by
  rw [Ty.subst_subst]
  exact Ty.subst_congr fun y _ => S.idempotent y

/-- A resolved type mentions unresolved variables only. -/
theorem unresolved_of_mem (h : x ∈ (t.subst S.resolve).vars) : S.Unresolved x :=
  Ty.subst_eq_self_iff.mp (S.subst_resolve_resolve t) x h

/-- A type that resolves to a variable resolves to an unresolved one. -/
theorem unresolved_of_eq (h : t.subst S.resolve = .inferVar x) : S.Unresolved x :=
  unresolved_of_mem (t := t) (by rw [h]; simp)

theorem Solution.subst_resolve (h : S.Solution U Γ θ) (t : Ty) :
    (t.subst S.resolve).subst θ = t.subst θ := by
  rw [Ty.subst_subst]
  exact Ty.subst_congr fun y _ => h.factors y

/-- A solution assigns to a variable of a resolved type nothing the whole type may not name. -/
theorem accessible_of_mem {u : Universe} (h : (t.subst θ).Accessible U Γ u)
    (hx : x ∈ t.vars) : (θ x).Accessible U Γ u :=
  (Ty.all_subst.mp h).of_mem x hx

/-- The resolution is a solution, over the store's own restrictions. -/
theorem solution_self (S : Store) (U : GenericParam → Universe) :
    S.Solution U S.restrictions S.resolve where
  factors := S.idempotent
  contains x hx := by
    rw [show S.resolve x = .inferVar x from hx]
    exact InferDomain.intersect_self _
  accessible x hx := by
    rw [show S.resolve x = .inferVar x from hx]
    exact Ty.all_inferVar.mpr (Nat.le_refl _)

/-- A type without parts in each domain. -/
def sample : InferDomain → Ty
  | .any => .bool
  | .integer => .int .i32
  | .float => .float .f64

theorem sample_spec (d : InferDomain) :
    d.Contains Γ (sample d) ∧ ∀ u, (sample d).Accessible U Γ u := by
  cases d <;> refine ⟨rfl, fun u => (Ty.all_iff (by trivial)).mpr ?_⟩ <;>
    simp [sample, decompose, leaf, Skeleton.Accessible, Skeleton.Below, Skeleton.placeholder]

/-- Every store has a solution that assigns types without variables. -/
theorem exists_ground (S : Store) (U : GenericParam → Universe) (Γ : Restrictions) :
    ∃ θ, S.Solution U Γ θ ∧ ∀ x, (θ x).vars = [] := by
  let δ : InferVarIndex → Ty := fun x => sample (S.restrictions.domain x)
  have hδ : ∀ x, S.Unresolved x → (S.resolve x).subst δ = sample (S.restrictions.domain x) :=
    fun x hx => by rw [show S.resolve x = .inferVar x from hx]; simp [δ]
  refine ⟨fun x => (S.resolve x).subst δ, ⟨fun x => ?_, fun x hx => ?_, fun x hx => ?_⟩, fun x => ?_⟩
  · rw [← Ty.subst_subst, S.idempotent]
  · rw [hδ x hx]; exact (sample_spec (U := U) _).1
  · rw [hδ x hx]; exact (sample_spec _).2 _
  · refine List.eq_nil_iff_forall_not_mem.mpr fun z hz => ?_
    obtain ⟨w, -, hw⟩ := Ty.mem_vars_subst.mp hz
    have : (δ w).vars = [] := by
      simp only [δ]
      cases S.restrictions.domain w <;> rfl
    simp [this] at hw

/-! ### Binding a variable -/

/-- The substitution that sends `x` to `t` and fixes every other variable. -/
@[grind =]
def single (x : InferVarIndex) (t : Ty) : InferVarIndex → Ty := Function.update .inferVar x t

@[simp] theorem single_self : single x t x = t := by simp [single]

theorem single_of_ne (h : y ≠ x) : single x t y = .inferVar y := by simp [single, h]

theorem subst_single_of_notMem {u : Ty} (h : x ∉ u.vars) : u.subst (single x t) = u :=
  Ty.subst_eq_self_iff.mpr fun _ hy => single_of_ne fun e => h (e ▸ hy)

/-- A substitution that equates `x` with `t` factors through the binding. -/
theorem subst_single_subst (h : θ x = t.subst θ) (u : Ty) :
    (u.subst (single x t)).subst θ = u.subst θ := by
  rw [Ty.subst_subst]
  refine Ty.subst_congr fun y _ => ?_
  by_cases hy : y = x
  · subst hy; simp [h]
  · simp [single_of_ne hy]

section Extend

variable (S) (restrictions : Restrictions) (hocc : x ∉ (t.subst S.resolve).vars)

/-- The store after the unresolved variable `x` was equated with `t`, which does not mention
it, under new restrictions. -/
def extend : Store where
  resolve y := (S.resolve y).subst (single x (t.subst S.resolve))
  restrictions := restrictions
  idempotent w := by
    have hfix : ∀ z ∈ ((S.resolve w).subst (single x (t.subst S.resolve))).vars,
        z ≠ x ∧ S.Unresolved z := by
      intro z hz
      obtain ⟨y, hy, hz⟩ := Ty.mem_vars_subst.mp hz
      by_cases hyx : y = x
      · subst hyx
        rw [single_self] at hz
        exact ⟨fun e => hocc (e ▸ hz), unresolved_of_mem hz⟩
      · rw [single_of_ne hyx, Ty.mem_vars_inferVar] at hz
        subst hz
        exact ⟨hyx, unresolved_of_mem (t := .inferVar w) (by simpa using hy)⟩
    refine Ty.subst_eq_self_iff.mpr fun z hz => ?_
    rw [show S.resolve z = .inferVar z from (hfix z hz).2]
    simpa using single_of_ne (hfix z hz).1

variable {S restrictions}

theorem extend_resolve (u : Ty) :
    u.subst (S.extend restrictions hocc).resolve =
      (u.subst S.resolve).subst (single x (t.subst S.resolve)) := by
  rw [Ty.subst_subst]; rfl

theorem extend_unresolved (h : (S.extend restrictions hocc).Unresolved y) :
    y ≠ x ∧ (S.Unresolved y ∨ t.subst S.resolve = .inferVar y) := by
  have hy : (S.resolve y).subst (single x (t.subst S.resolve)) = .inferVar y := h
  rcases (S.resolve y).rigid_or_var with hr | ⟨w, hw⟩
  · have := Ty.rigid_subst hr (single x (t.subst S.resolve))
    rw [hy] at this
    exact this.elim
  · rw [hw, Ty.subst_inferVar] at hy
    by_cases hwx : w = x
    · subst hwx
      rw [single_self] at hy
      exact ⟨fun e => hocc (by rw [hy, e]; simp), .inr hy⟩
    · rw [single_of_ne hwx, Ty.inferVar.injEq] at hy
      subst hy
      exact ⟨hwx, .inl hw⟩

variable (hx : S.Unresolved x)

theorem unresolved_extend (h : S.Unresolved y) (hne : y ≠ x) :
    (S.extend restrictions hocc).Unresolved y := by
  have : S.resolve y = .inferVar y := h
  simp [Unresolved, extend, this, single_of_ne hne]

include hx

/-- The factoring part of a solution of the extended store. -/
theorem extend_factors :
    (∀ y, ((S.extend restrictions hocc).resolve y).subst θ = θ y) ↔
      (∀ y, (S.resolve y).subst θ = θ y) ∧ θ x = t.subst θ := by
  have hres : ∀ y, ((S.extend restrictions hocc).resolve y).subst θ =
      ((S.resolve y).subst (single x (t.subst S.resolve))).subst θ := fun _ => rfl
  constructor
  · intro h
    have hxt : θ x = (t.subst S.resolve).subst θ := by
      rw [← h x, hres, show S.resolve x = .inferVar x from hx]; simp
    have hS : ∀ y, (S.resolve y).subst θ = θ y := fun y => by
      rw [← h y, hres, subst_single_subst hxt]
    refine ⟨hS, hxt.trans ?_⟩
    rw [Ty.subst_subst]
    exact Ty.subst_congr fun y _ => hS y
  · rintro ⟨hS, hxt⟩ y
    have : θ x = (t.subst S.resolve).subst θ := by
      rw [hxt, Ty.subst_subst]
      exact (Ty.subst_congr fun y _ => hS y).symm
    rw [hres, subst_single_subst this, hS]

/-- A unresolved variable may be bound to a rigid type of its domain whose heads it may name,
when the variables of that type come down to its ceiling. -/
theorem bind_solution (hr : (t.subst S.resolve).Rigid)
    (hadmits : (S.restrictions.domain x).admits (t.subst S.resolve) = true)
    (hheads : (t.subst S.resolve).All (Skeleton.Accessible U (S.restrictions.ceiling x))
      fun _ => True)
    (hdomain : ∀ y, S.Unresolved y → y ≠ x → restrictions.domain y = S.restrictions.domain y)
    (hceiling : ∀ y, S.Unresolved y → y ≠ x → restrictions.ceiling y =
      if y ∈ (t.subst S.resolve).vars
      then min (S.restrictions.ceiling y) (S.restrictions.ceiling x)
      else S.restrictions.ceiling y) :
    (S.extend restrictions hocc).Solution U Γ θ ↔ S.Solution U Γ θ ∧ θ x = t.subst θ := by
  constructor
  · intro h
    obtain ⟨hS, hxt⟩ := (extend_factors hocc hx).mp h.factors
    have hxt' : θ x = (t.subst S.resolve).subst θ := by
      rw [hxt, Ty.subst_subst]
      exact (Ty.subst_congr fun y _ => hS y).symm
    refine ⟨⟨hS, fun y hy => ?_, fun y hy => ?_⟩, hxt⟩
    · by_cases hyx : y = x
      · subst hyx
        rw [hxt', InferDomain.contains_iff (Ty.rigid_subst hr θ), InferDomain.admits_subst _ hr]
        exact hadmits
      · have := h.contains y (unresolved_extend hocc hy hyx)
        rwa [show (S.extend restrictions hocc).restrictions = restrictions from rfl,
          hdomain y hy hyx] at this
    · by_cases hyx : y = x
      · subst hyx
        rw [hxt', Ty.Accessible, Ty.all_subst]
        refine Ty.All.imp hheads (fun _ => id) fun z hz _ => ?_
        have hzx : z ≠ y := fun e => hocc (e ▸ hz)
        have hzu := unresolved_of_mem hz
        have := h.accessible z (unresolved_extend hocc hzu hzx)
        rw [show (S.extend restrictions hocc).restrictions = restrictions from rfl,
          hceiling z hzu hzx, if_pos hz] at this
        exact this.mono (Nat.min_le_right _ _)
      · have := h.accessible y (unresolved_extend hocc hy hyx)
        rw [show (S.extend restrictions hocc).restrictions = restrictions from rfl,
          hceiling y hy hyx] at this
        split at this
        · exact this.mono (Nat.min_le_left _ _)
        · exact this
  · rintro ⟨h, hxt⟩
    have hnew : ∀ y, (S.extend restrictions hocc).Unresolved y → y ≠ x ∧ S.Unresolved y :=
      fun y hy => by
        obtain ⟨hyx, hy | hy⟩ := extend_unresolved hocc hy
        · exact ⟨hyx, hy⟩
        · rw [hy] at hr; exact hr.elim
    refine ⟨(extend_factors hocc hx).mpr ⟨h.factors, hxt⟩, fun y hy => ?_, fun y hy => ?_⟩
    · obtain ⟨hyx, hyu⟩ := hnew y hy
      rw [show (S.extend restrictions hocc).restrictions = restrictions from rfl,
        hdomain y hyu hyx]
      exact h.contains y hyu
    · obtain ⟨hyx, hyu⟩ := hnew y hy
      rw [show (S.extend restrictions hocc).restrictions = restrictions from rfl,
        hceiling y hyu hyx]
      split
      · rename_i hyt
        rcases Nat.le_total (S.restrictions.ceiling y) (S.restrictions.ceiling x) with hle | hle
        · rw [Nat.min_eq_left hle]; exact h.accessible y hyu
        · rw [Nat.min_eq_right hle]
          have hacc := h.accessible x hx
          rw [hxt, ← h.subst_resolve] at hacc
          exact accessible_of_mem hacc hyt
      · exact h.accessible y hyu

/-- Two unresolved variables may be linked when their domains meet; the class gets the common
domain and the lower ceiling. -/
theorem link_solution {m : InferDomain} (hy : S.Unresolved y) (ht : t.subst S.resolve = .inferVar y)
    (hm : (S.restrictions.domain x).intersect (S.restrictions.domain y) = some m)
    (hdomain : ∀ z, S.Unresolved z → z ≠ x →
      restrictions.domain z = if z = y then m else S.restrictions.domain z)
    (hceiling : ∀ z, S.Unresolved z → z ≠ x → restrictions.ceiling z =
      if z = y then min (S.restrictions.ceiling x) (S.restrictions.ceiling y)
      else S.restrictions.ceiling z) :
    (S.extend restrictions hocc).Solution U Γ θ ↔ S.Solution U Γ θ ∧ θ x = t.subst θ := by
  have hyx : y ≠ x := by
    rintro rfl
    exact hocc (by rw [ht]; simp)
  constructor
  · intro h
    obtain ⟨hS, hxt⟩ := (extend_factors hocc hx).mp h.factors
    have hxy : θ x = θ y := by
      have : (t.subst S.resolve).subst θ = t.subst θ := by
        rw [Ty.subst_subst]
        exact Ty.subst_congr fun z _ => hS z
      rw [hxt, ← this, ht, Ty.subst_inferVar]
    have hd := h.contains y (unresolved_extend hocc hy hyx)
    have ha := h.accessible y (unresolved_extend hocc hy hyx)
    rw [show (S.extend restrictions hocc).restrictions = restrictions from rfl] at hd ha
    rw [hdomain y hy hyx, if_pos rfl] at hd
    rw [hceiling y hy hyx, if_pos rfl] at ha
    refine ⟨⟨hS, fun z hz => ?_, fun z hz => ?_⟩, hxt⟩
    · by_cases hzx : z = x
      · subst hzx
        rw [hxy]; exact (hd.of_intersect hm).1
      · have := h.contains z (unresolved_extend hocc hz hzx)
        rw [show (S.extend restrictions hocc).restrictions = restrictions from rfl,
          hdomain z hz hzx] at this
        split at this
        · rename_i hzy
          subst hzy
          exact (hd.of_intersect hm).2
        · exact this
    · by_cases hzx : z = x
      · subst hzx
        rw [hxy]; exact ha.mono (Nat.min_le_left _ _)
      · have := h.accessible z (unresolved_extend hocc hz hzx)
        rw [show (S.extend restrictions hocc).restrictions = restrictions from rfl,
          hceiling z hz hzx] at this
        split at this
        · rename_i hzy
          subst hzy
          exact ha.mono (Nat.min_le_right _ _)
        · exact this
  · rintro ⟨h, hxt⟩
    have hxy : θ x = θ y := by
      rw [hxt, ← h.subst_resolve, ht, Ty.subst_inferVar]
    have hnew : ∀ z, (S.extend restrictions hocc).Unresolved z → z ≠ x ∧ S.Unresolved z :=
      fun z hz => by
        obtain ⟨hzx, hz | hz⟩ := extend_unresolved hocc hz
        · exact ⟨hzx, hz⟩
        · rw [ht, Ty.inferVar.injEq] at hz
          exact ⟨hzx, hz ▸ hy⟩
    have herr : ∀ e, θ y ≠ .error e := fun e he => by
      have := h.accessible y hy
      rw [he, Ty.Accessible, Ty.all_iff (by trivial)] at this
      exact this.1.1 e rfl
    obtain ⟨m', hm', hcm⟩ := InferDomain.contains_inter herr (hxy ▸ h.contains x hx)
      (h.contains y hy)
    rw [hm, Option.some.injEq] at hm'
    subst hm'
    refine ⟨(extend_factors hocc hx).mpr ⟨h.factors, hxt⟩, fun z hz => ?_, fun z hz => ?_⟩
    · obtain ⟨hzx, hzu⟩ := hnew z hz
      rw [show (S.extend restrictions hocc).restrictions = restrictions from rfl,
        hdomain z hzu hzx]
      split
      · rename_i hzy
        subst hzy
        exact hcm
      · exact h.contains z hzu
    · obtain ⟨hzx, hzu⟩ := hnew z hz
      rw [show (S.extend restrictions hocc).restrictions = restrictions from rfl,
        hceiling z hzu hzx]
      split
      · rename_i hzy
        subst hzy
        rcases Nat.le_total (S.restrictions.ceiling x) (S.restrictions.ceiling z) with hle | hle
        · rw [Nat.min_eq_left hle, ← hxy]; exact h.accessible x hx
        · rw [Nat.min_eq_right hle]; exact h.accessible z hzu
      · exact h.accessible z hzu

end Extend

/-! ### Equalities without a solution -/

section NoSolution

variable (h : S.Solution U Γ θ)
include h

theorem ne_of_occurs (hr : (t.subst S.resolve).Rigid) (hx : x ∈ (t.subst S.resolve).vars) :
    θ x ≠ t.subst θ := by
  rw [← h.subst_resolve t]
  exact Ty.subst_ne_of_mem_vars hr hx

theorem ne_of_not_admits (hx : S.Unresolved x) (hr : (t.subst S.resolve).Rigid)
    (hadmits : ¬ (S.restrictions.domain x).admits (t.subst S.resolve) = true) :
    θ x ≠ t.subst θ := by
  intro e
  have := h.contains x hx
  rw [e, ← h.subst_resolve t, InferDomain.contains_iff (Ty.rigid_subst hr θ),
    InferDomain.admits_subst _ hr] at this
  exact hadmits this

theorem ne_of_leak (hx : S.Unresolved x)
    (hheads : ¬ (t.subst S.resolve).All (Skeleton.Accessible U (S.restrictions.ceiling x))
      fun _ => True) : θ x ≠ t.subst θ := by
  intro e
  have := h.accessible x hx
  rw [e, ← h.subst_resolve t, Ty.Accessible, Ty.all_subst] at this
  exact hheads (Ty.All.imp this (fun _ => id) fun _ _ _ => trivial)

theorem ne_of_disjoint (hx : S.Unresolved x) (hy : S.Unresolved y)
    (hdisjoint : (S.restrictions.domain x).intersect (S.restrictions.domain y) = none) :
    θ x ≠ θ y := by
  intro e
  have herr : ∀ err, θ y ≠ .error err := fun err he => by
    have := h.accessible y hy
    rw [he, Ty.Accessible, Ty.all_iff (by trivial)] at this
    exact this.1.1 err rfl
  obtain ⟨m, hm, -⟩ := InferDomain.contains_inter herr (e ▸ h.contains x hx) (h.contains y hy)
  rw [hdisjoint] at hm
  cases hm

end NoSolution

end Store

end Sage
