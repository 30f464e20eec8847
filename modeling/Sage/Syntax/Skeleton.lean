import Sage.Library.Resolution
import Sage.Syntax.Ty

/-!
# Syntax — skeletons

`skeleton.rs` splits a type into its rigid head, the *skeleton*, and its sub-type children,
and puts the two together again.  Congruence, unification and matching see a type only this
way, so this is where a type becomes a first-order term: `Ty.term` reads an inference variable
as a variable and every other type as a node over its skeleton.

* `recompose_decompose` — putting the parts together gives the type back.
* `decompose_recompose` — with as many children as the skeleton asks for, so does splitting.
* `Ty.term_eq`, `Ty.term_injective`, `names_term` — terms follow `decompose`, and name types.
* `Ty.term_subst` — the type folder's substitution is substitution of terms.
-/

namespace Sage

open Terms

/-- The rigid part of a type: everything except the sub-type children. -/
inductive Skeleton where
  | bool
  | char
  | int (i : IntTy)
  | uint (u : UintTy)
  | float (f : FloatTy)
  | str
  | never
  | error (e : ErrorReported)
  | param (p : GenericParam)
  | inferVar (idx : InferVarIndex)
  | adt (sym : Symbol) (arity : Nat)
  | namedAlias (sym : TypeAliasSymbol) (arity : Nat)
  | associatedAlias (associatedTy : TypeAliasSymbol) (traitSym : TraitSymbol)
      (traitArgCount itemArgCount : Nat)
  | opaqueAlias (sym : TypeAliasSymbol) (arity : Nat)
  | ref (m : Mutability) (lt : Lifetime)
  | tuple (arity : Nat)
  | slice
  | array (c : Const)
  | fnPtr (paramCount : Nat)
deriving DecidableEq, Repr

/-- A decomposed type: skeleton and children. -/
structure Decomposed where
  skeleton : Skeleton
  children : List Ty

@[grind =] def leaf (skeleton : Skeleton) : Decomposed := ⟨skeleton, []⟩

/-- Split a type into its skeleton and its sub-type children. -/
@[grind =] def decompose : Ty → Decomposed
  | .bool => leaf .bool
  | .char => leaf .char
  | .int i => leaf (.int i)
  | .uint u => leaf (.uint u)
  | .float f => leaf (.float f)
  | .str => leaf .str
  | .never => leaf .never
  | .error e => leaf (.error e)
  | .param p => leaf (.param p)
  | .inferVar idx => leaf (.inferVar idx)
  | .adt sym args => ⟨.adt sym args.length, args⟩
  | .alias (.named sym args) => ⟨.namedAlias sym args.length, args⟩
  | .alias (.associated associatedTy selfTy traitSym traitArgs args) =>
      ⟨.associatedAlias associatedTy traitSym traitArgs.length args.length,
        selfTy :: (traitArgs ++ args)⟩
  | .alias (.opaqueAlias sym args) => ⟨.opaqueAlias sym args.length, args⟩
  | .ref inner m lt => ⟨.ref m lt, [inner]⟩
  | .tuple elems => ⟨.tuple elems.length, elems⟩
  | .slice inner => ⟨.slice, [inner]⟩
  | .array inner c => ⟨.array c, [inner]⟩
  | .fnPtr params ret => ⟨.fnPtr params.length, params ++ [ret]⟩

/-- Put a skeleton and children together; `none` where the source indexes out of bounds. -/
@[grind =] def recompose (skeleton : Skeleton) (children : List Ty) : Option Ty :=
  match skeleton with
  | .bool => some .bool
  | .char => some .char
  | .int i => some (.int i)
  | .uint u => some (.uint u)
  | .float f => some (.float f)
  | .str => some .str
  | .never => some .never
  | .error e => some (.error e)
  | .param p => some (.param p)
  | .inferVar idx => some (.inferVar idx)
  | .adt sym _ => some (.adt sym children)
  | .namedAlias sym _ => some (.alias (.named sym children))
  | .associatedAlias associatedTy traitSym traitArgCount itemArgCount =>
      match children with
      | selfTy :: rest =>
          if traitArgCount + itemArgCount ≤ rest.length then
            some (.alias (.associated associatedTy selfTy traitSym (rest.take traitArgCount)
              ((rest.drop traitArgCount).take itemArgCount)))
          else none
      | [] => none
  | .opaqueAlias sym _ => some (.alias (.opaqueAlias sym children))
  | .ref m lt => children.head?.map fun inner => .ref inner m lt
  | .tuple _ => some (.tuple children)
  | .slice => children.head?.map .slice
  | .array c => children.head?.map fun inner => .array inner c
  | .fnPtr paramCount => children[paramCount]?.map (.fnPtr (children.take paramCount))

/-- How many children a skeleton asks for. -/
@[grind =] def Skeleton.arity : Skeleton → Nat
  | .adt _ arity | .namedAlias _ arity | .opaqueAlias _ arity | .tuple arity => arity
  | .associatedAlias _ _ traitArgCount itemArgCount => 1 + traitArgCount + itemArgCount
  | .ref _ _ | .slice | .array _ => 1
  | .fnPtr paramCount => paramCount + 1
  | .bool | .char | .int _ | .uint _ | .float _ | .str | .never | .error _ | .param _
  | .inferVar _ => 0

theorem length_children (t : Ty) :
    (decompose t).children.length = (decompose t).skeleton.arity := by
  rcases t with _ | _ | _ | _ | _ | _ | _ | (_ | _ | _) | _ | _ | _ | _ | _ | _ | _ | _ | _ <;>
    simp [decompose, leaf, Skeleton.arity]
  omega

theorem recompose_decompose (t : Ty) :
    recompose (decompose t).skeleton (decompose t).children = some t := by
  rcases t with _ | _ | _ | _ | _ | _ | _ | (_ | _ | _) | _ | _ | _ | _ | _ | _ | _ | _ | _ <;>
    simp [decompose, leaf, recompose]

theorem decompose_injective {t u : Ty} (hs : (decompose t).skeleton = (decompose u).skeleton)
    (hc : (decompose t).children = (decompose u).children) : t = u := by
  have h := recompose_decompose t
  rw [hs, hc, recompose_decompose] at h
  exact (Option.some.inj h).symm

/-- With as many children as the skeleton asks for, recomposition succeeds and splits back. -/
theorem decompose_recompose {s : Skeleton} {cs : List Ty} (h : cs.length = s.arity) :
    ∃ t, recompose s cs = some t ∧ decompose t = ⟨s, cs⟩ := by
  cases s with
  | bool | char | int _ | uint _ | float _ | str | never | error _ | param _ | inferVar _ =>
      obtain rfl := List.eq_nil_of_length_eq_zero h
      exact ⟨_, rfl, rfl⟩
  | adt sym n | namedAlias sym n | opaqueAlias sym n | tuple n =>
      refine ⟨_, rfl, ?_⟩
      simp only [Skeleton.arity] at h
      simp [decompose, h]
  | ref _ _ | slice | array _ =>
      obtain ⟨c, rfl⟩ := List.length_eq_one_iff.mp h
      exact ⟨_, rfl, rfl⟩
  | associatedAlias a tr m n =>
      obtain ⟨c, rest, rfl⟩ := List.exists_cons_of_length_eq_add_one
        (n := m + n) (by rw [h, Skeleton.arity]; omega)
      simp only [Skeleton.arity, List.length_cons] at h
      refine ⟨_, by simp only [recompose]; rw [if_pos (by omega)], ?_⟩
      have hm : min m rest.length = m := by omega
      have hn : rest.length - m = n := by omega
      have ht : (rest.drop m).take n = rest.drop m :=
        List.take_of_length_le (by rw [List.length_drop]; omega)
      simp [decompose, hm, hn, ht]
  | fnPtr n =>
      simp only [Skeleton.arity] at h
      have hn : n < cs.length := by omega
      refine ⟨.fnPtr (cs.take n) cs[n], by simp [recompose, hn], ?_⟩
      have hm : min n cs.length = n := by omega
      have hd : cs.drop (n + 1) = [] := List.drop_eq_nil_of_le (by omega)
      have := List.take_append_drop n cs
      rw [List.drop_eq_getElem_cons hn, hd] at this
      simp [decompose, hm, this]

/-- Splitting loses nothing, and a skeleton goes with any children of the number it came with. -/
structure RoundTrip : Prop where
  recomposed (t : Ty) : recompose (decompose t).skeleton (decompose t).children = some t
  separated (t u : Ty) : (decompose t).skeleton = (decompose u).skeleton →
    (decompose t).children = (decompose u).children → t = u
  decomposed (t : Ty) (cs : List Ty) : cs.length = (decompose t).children.length →
    ∃ u, recompose (decompose t).skeleton cs = some u ∧ decompose u = ⟨(decompose t).skeleton, cs⟩
  accepted (s : Skeleton) (cs : List Ty) : cs.length = s.arity →
    ∃ t, recompose s cs = some t ∧ decompose t = ⟨s, cs⟩

theorem decompose_roundTrip : RoundTrip where
  recomposed := recompose_decompose
  separated _ _ := decompose_injective
  decomposed t _ h := decompose_recompose (h.trans (length_children t))
  accepted _ _ := decompose_recompose

/-- A type is rigid when it is not an inference variable. -/
@[grind =] def Ty.Rigid : Ty → Prop
  | .inferVar _ => False
  | _ => True

instance : DecidablePred Ty.Rigid := fun t => by
  cases t <;> simp only [Ty.Rigid] <;> infer_instance

theorem Ty.rigid_or_var (t : Ty) : t.Rigid ∨ ∃ x, t = .inferVar x := by
  cases t <;> simp [Ty.Rigid]

theorem Ty.rigid_of_mem_children {t c : Ty} (h : c ∈ (decompose t).children) : t.Rigid := by
  rcases t.rigid_or_var with hr | ⟨x, rfl⟩
  · exact hr
  · exact absurd h List.not_mem_nil

/-! ### Types as terms -/

mutual

/-- The term a type stands for: inference variables are its variables, skeletons its heads. -/
@[grind =] def Ty.term : Ty → Term Skeleton InferVarIndex
  | .bool => .node .bool []
  | .char => .node .char []
  | .int i => .node (.int i) []
  | .uint u => .node (.uint u) []
  | .float f => .node (.float f) []
  | .str => .node .str []
  | .never => .node .never []
  | .error e => .node (.error e) []
  | .param p => .node (.param p) []
  | .inferVar idx => .var idx
  | .adt sym args => .node (.adt sym args.length) (termList args)
  | .alias a => AliasTy.term a
  | .ref inner m lt => .node (.ref m lt) [Ty.term inner]
  | .tuple elems => .node (.tuple elems.length) (termList elems)
  | .slice inner => .node .slice [Ty.term inner]
  | .array inner c => .node (.array c) [Ty.term inner]
  | .fnPtr params ret => .node (.fnPtr params.length) (termList params ++ [Ty.term ret])

def AliasTy.term : AliasTy → Term Skeleton InferVarIndex
  | .named sym args => .node (.namedAlias sym args.length) (termList args)
  | .associated associatedTy selfTy traitSym traitArgs args =>
      .node (.associatedAlias associatedTy traitSym traitArgs.length args.length)
        (Ty.term selfTy :: (termList traitArgs ++ termList args))
  | .opaqueAlias sym args => .node (.opaqueAlias sym args.length) (termList args)

def termList : List Ty → List (Term Skeleton InferVarIndex)
  | [] => []
  | t :: ts => Ty.term t :: termList ts

end

@[simp] theorem termList_eq_map (ts : List Ty) : termList ts = ts.map Ty.term := by
  induction ts with
  | nil => rfl
  | cons t ts ih => simp [termList, ih]

@[simp] theorem Ty.term_inferVar (x : InferVarIndex) : (Ty.inferVar x).term = .var x := by
  simp [Ty.term]

/-- The term of a rigid type is a node over its skeleton and the terms of its children. -/
theorem Ty.term_eq {t : Ty} (h : t.Rigid) :
    t.term = .node (decompose t).skeleton ((decompose t).children.map Ty.term) := by
  rcases t with _ | _ | _ | _ | _ | _ | _ | (_ | _ | _) | _ | _ | _ | _ | _ | _ | _ | _ | _ <;>
    simp_all [decompose, leaf, Ty.term, AliasTy.term, Ty.Rigid]

theorem Ty.term_eq_var {t : Ty} {x : InferVarIndex} (h : t.term = .var x) : t = .inferVar x := by
  rcases t.rigid_or_var with hr | ⟨y, rfl⟩
  · rw [Ty.term_eq hr] at h; cases h
  · simpa using h

/-- The children of a type are smaller, as terms. -/
theorem Ty.size_child_lt {t c : Ty} (h : c ∈ (decompose t).children) :
    c.term.size < t.term.size := by
  have hr : t.Rigid := by
    rcases t.rigid_or_var with hr | ⟨y, rfl⟩
    · exact hr
    · simp [decompose, leaf] at h
  rw [Ty.term_eq hr]
  exact Term.size_lt_node (List.mem_map_of_mem h)

/-- Induction on a type through its children. -/
theorem Ty.induction {motive : Ty → Prop}
    (step : ∀ t, (∀ c ∈ (decompose t).children, motive c) → motive t) (t : Ty) : motive t := by
  obtain ⟨k, hk⟩ : ∃ k, t.term.size = k := ⟨_, rfl⟩
  induction k using Nat.strongRecOn generalizing t with
  | ind k ih => exact step t fun c hc => ih _ (hk ▸ Ty.size_child_lt hc) c rfl

theorem Ty.term_injective : Function.Injective Ty.term := by
  intro t
  induction t using Ty.induction with
  | step t ih =>
      intro u h
      rcases t.rigid_or_var with hr | ⟨x, rfl⟩
      · have hu : u.Rigid := by
          rcases u.rigid_or_var with hu | ⟨y, rfl⟩
          · exact hu
          · rw [Ty.term_inferVar] at h; rw [Ty.term_eq_var h] at hr; exact hr.elim
        rw [Ty.term_eq hr, Ty.term_eq hu, Term.node.injEq] at h
        refine decompose_injective h.1 ?_
        have key : ∀ cs ds : List Ty, (∀ c ∈ cs, ∀ d, c.term = d.term → c = d) →
            cs.map Ty.term = ds.map Ty.term → cs = ds := by
          intro cs
          induction cs with
          | nil => intro ds _ h; exact (List.map_eq_nil_iff.mp h.symm).symm
          | cons c cs ihs =>
              intro ds hcs h
              obtain ⟨d, ds, rfl, hd, hds⟩ := List.map_eq_cons_iff.mp h.symm
              rw [hcs c (by simp) d hd.symm,
                ihs ds (fun c' hc' => hcs c' (by simp [hc'])) hds.symm]
        exact key _ _ (fun c hc d => @ih c hc d) h.2
      · exact (Ty.term_eq_var (by simpa using h.symm)).symm

instance : DecidableEq Ty := fun t u =>
  decidable_of_iff (t.term = u.term) Ty.term_injective.eq_iff

theorem names_term : Resolution.Names Ty.term where
  injective := Ty.term_injective
  var x := ⟨.inferVar x, Ty.term_inferVar x⟩
  arg t s args h b hb := by
    rcases t.rigid_or_var with hr | ⟨x, rfl⟩
    · rw [Ty.term_eq hr, Term.node.injEq] at h
      rw [← h.2] at hb
      obtain ⟨c, -, rfl⟩ := List.mem_map.mp hb
      exact ⟨c, rfl⟩
    · rw [Ty.term_inferVar] at h; cases h

/-- The term of a recomposed type. -/
theorem term_recompose {t u : Ty} {cs : List Ty} (hr : t.Rigid)
    (hlen : cs.length = (decompose t).children.length)
    (h : recompose (decompose t).skeleton cs = some u) :
    u.term = .node (decompose t).skeleton (cs.map Ty.term) ∧
      decompose u = ⟨(decompose t).skeleton, cs⟩ := by
  obtain ⟨v, hv, hd⟩ := decompose_recompose (hlen.trans (length_children t))
  obtain rfl : u = v := Option.some.inj (h.symm.trans hv)
  refine ⟨?_, hd⟩
  have hu : u.Rigid := by
    rcases u.rigid_or_var with hu | ⟨y, rfl⟩
    · exact hu
    · rw [decompose, leaf, Decomposed.mk.injEq] at hd
      exfalso
      rcases t.rigid_or_var with _ | ⟨x, rfl⟩
      · have : (decompose t).skeleton = .inferVar y := hd.1.symm
        rcases t with _ | _ | _ | _ | _ | _ | _ | (_ | _ | _) | _ | _ | _ | _ | _ | _ | _ | _ | _ <;>
          simp_all [decompose, leaf, Ty.Rigid]
      · exact hr.elim
  rw [Ty.term_eq hu, hd]

/-! ### Substitution -/

@[simp] theorem Ty.subst_inferVar (θ : InferVarIndex → Ty) (x : InferVarIndex) :
    (Ty.inferVar x).subst θ = θ x := by
  simp [Ty.subst, Ty.foldLeaves]

theorem Ty.decompose_subst {t : Ty} (h : t.Rigid) (θ : InferVarIndex → Ty) :
    decompose (t.subst θ) =
      ⟨(decompose t).skeleton, (decompose t).children.map (Ty.subst θ)⟩ := by
  rcases t with _ | _ | _ | _ | _ | _ | _ | (_ | _ | _) | _ | _ | _ | _ | _ | _ | _ | _ | _ <;>
    simp_all [decompose, leaf, Ty.subst, Ty.foldLeaves, AliasTy.foldLeaves, Ty.Rigid]

theorem Ty.rigid_subst {t : Ty} (h : t.Rigid) (θ : InferVarIndex → Ty) : (t.subst θ).Rigid := by
  rcases t with _ | _ | _ | _ | _ | _ | _ | (_ | _ | _) | _ | _ | _ | _ | _ | _ | _ | _ | _ <;>
    simp_all [Ty.subst, Ty.foldLeaves, Ty.Rigid]

/-- The type folder's substitution is substitution of terms. -/
theorem Ty.term_subst (θ : InferVarIndex → Ty) (t : Ty) :
    (t.subst θ).term = t.term.subst fun x => (θ x).term := by
  induction t using Ty.induction with
  | step t ih =>
      rcases t.rigid_or_var with hr | ⟨x, rfl⟩
      · rw [Ty.term_eq (Ty.rigid_subst hr θ), Ty.term_eq hr, Ty.decompose_subst hr, Term.subst_node,
          Term.node.injEq, List.map_map, List.map_map]
        exact ⟨rfl, List.map_congr_left ih⟩
      · simp

theorem Ty.subst_subst (θ σ : InferVarIndex → Ty) (t : Ty) :
    (t.subst θ).subst σ = t.subst fun x => (θ x).subst σ := by
  apply Ty.term_injective
  simp only [Ty.term_subst, Term.subst_subst]

@[simp] theorem Ty.subst_var_eq_self (t : Ty) : t.subst .inferVar = t := by
  apply Ty.term_injective
  simp [Ty.term_subst]

/-! ### Variables and heads of a type -/

/-- The inference variables of a type, left to right. -/
@[grind =] def Ty.vars (t : Ty) : List InferVarIndex := t.term.vars

/-- Every skeleton of the type satisfies `P` and every inference variable `Q`. -/
@[grind =]
def Ty.All (P : Skeleton → Prop) (Q : InferVarIndex → Prop) (t : Ty) : Prop := t.term.All P Q

namespace Ty

variable {P : Skeleton → Prop} {Q : InferVarIndex → Prop} {θ σ : InferVarIndex → Ty} {t u : Ty}
  {x : InferVarIndex}

@[simp] theorem mem_vars_inferVar {y : InferVarIndex} : x ∈ (inferVar y).vars ↔ x = y := by
  simp [vars]

@[simp] theorem all_inferVar : (inferVar x).All P Q ↔ Q x := by simp [Ty.All]

theorem mem_vars_iff (h : t.Rigid) : x ∈ t.vars ↔ ∃ c ∈ (decompose t).children, x ∈ c.vars := by
  rw [vars, term_eq h, Term.mem_vars_node]
  exact ⟨fun ⟨_, ha, hx⟩ => by
      obtain ⟨c, hc, rfl⟩ := List.mem_map.mp ha
      exact ⟨c, hc, hx⟩,
    fun ⟨c, hc, hx⟩ => ⟨c.term, List.mem_map_of_mem hc, hx⟩⟩

theorem all_iff (h : t.Rigid) :
    t.All P Q ↔ P (decompose t).skeleton ∧ ∀ c ∈ (decompose t).children, c.All P Q := by
  rw [Ty.All, term_eq h, Term.all_node, List.forall_mem_map]
  rfl

theorem subst_congr (h : ∀ y ∈ t.vars, θ y = σ y) : t.subst θ = t.subst σ := by
  apply term_injective
  rw [term_subst, term_subst]
  exact Term.subst_congr fun y hy => congrArg term (h y hy)

theorem subst_eq_self_iff : t.subst θ = t ↔ ∀ y ∈ t.vars, θ y = inferVar y := by
  rw [← term_injective.eq_iff, term_subst, Term.subst_eq_self_iff]
  refine forall₂_congr fun y _ => ?_
  rw [← term_injective.eq_iff, term_inferVar]

theorem mem_vars_subst : x ∈ (t.subst θ).vars ↔ ∃ y ∈ t.vars, x ∈ (θ y).vars := by
  rw [vars, term_subst, Term.mem_vars_subst]; rfl

theorem all_subst : (t.subst θ).All P Q ↔ t.All P fun y => (θ y).All P Q := by
  rw [Ty.All, term_subst, Term.all_subst]; rfl

theorem All.imp {P' : Skeleton → Prop} {Q' : InferVarIndex → Prop} (h : t.All P Q)
    (hP : ∀ s, P s → P' s) (hQ : ∀ y ∈ t.vars, Q y → Q' y) : t.All P' Q' :=
  Term.All.imp h hP hQ

theorem All.of_mem (h : t.All P Q) : ∀ y ∈ t.vars, Q y := Term.All.of_mem h

/-- The occurs check: no substitution equates a variable with a rigid type that mentions it. -/
theorem subst_ne_of_mem_vars (hr : t.Rigid) (hx : x ∈ t.vars) : θ x ≠ t.subst θ := by
  intro h
  have hx' : x ∈ (Term.node (decompose t).skeleton ((decompose t).children.map term)).vars := by
    rw [← term_eq hr]; exact hx
  have hlt := Term.size_lt_size_subst (θ := fun y => (θ y).term) hx'
  rw [← term_eq hr, ← term_subst, ← h] at hlt
  exact absurd hlt (Nat.lt_irrefl _)

/-- Two rigid types are equal under a substitution exactly when their skeletons agree and
their children are. -/
theorem subst_eq_subst_iff (ht : t.Rigid) (hu : u.Rigid) :
    t.subst θ = u.subst θ ↔ (decompose t).skeleton = (decompose u).skeleton ∧
      (decompose t).children.map (subst θ) = (decompose u).children.map (subst θ) := by
  constructor
  · intro h
    have h := congrArg decompose h
    rw [decompose_subst ht, decompose_subst hu, Decomposed.mk.injEq] at h
    exact h
  · rintro ⟨hs, hc⟩
    refine decompose_injective ?_ ?_
    · rw [decompose_subst ht, decompose_subst hu]; exact hs
    · rw [decompose_subst ht, decompose_subst hu]; exact hc

section Fold

variable {onVar : InferVarIndex → Ty} {onParam : GenericParam → Ty} {onConst : Const → Const}

/-- A folded compound type has the folded children. -/
theorem foldLeaves_children (hr : t.Rigid) (hp : ∀ p, t ≠ .param p) :
    (t.foldLeaves onVar onParam onConst).Rigid ∧
      (decompose (t.foldLeaves onVar onParam onConst)).children =
        (decompose t).children.map (Ty.foldLeaves onVar onParam onConst) := by
  rcases t with _ | _ | _ | _ | _ | _ | _ | (_ | _ | _) | _ | _ | _ | _ | _ | _ | _ | _ | _ <;>
    simp_all [decompose, leaf, Ty.foldLeaves, AliasTy.foldLeaves, Ty.Rigid]

/-- A folded type mentions what its variables and parameters are replaced by. -/
theorem mem_vars_foldLeaves {y : InferVarIndex}
    (hy : y ∈ (t.foldLeaves onVar onParam onConst).vars) :
    (∃ x ∈ t.vars, y ∈ (onVar x).vars) ∨ ∃ p, y ∈ (onParam p).vars := by
  induction t using Ty.induction with
  | step t ih =>
      rcases t.rigid_or_var with hr | ⟨x, rfl⟩
      · by_cases hp : ∃ p, t = .param p
        · obtain ⟨p, rfl⟩ := hp
          exact .inr ⟨p, by rwa [Ty.foldLeaves] at hy⟩
        · have hfold : (t.foldLeaves onVar onParam onConst).Rigid ∧ _ :=
            foldLeaves_children hr fun p e => hp ⟨p, e⟩
          obtain ⟨c, hcm, hy⟩ := (mem_vars_iff hfold.1).mp hy
          rw [hfold.2] at hcm
          obtain ⟨b, hb, rfl⟩ := List.mem_map.mp hcm
          obtain ⟨x, hx, hy⟩ | hy := ih b hb hy
          · exact .inl ⟨x, (mem_vars_iff hr).mpr ⟨b, hb, hx⟩, hy⟩
          · exact .inr hy
      · exact .inl ⟨x, by simp, by rwa [Ty.foldLeaves] at hy⟩

end Fold

end Ty

end Sage
