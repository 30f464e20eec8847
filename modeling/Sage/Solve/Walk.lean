import Sage.Library.Grow
import Sage.Solve.Goal

/-!
# Solve — what a traversal of a goal does

The traversals of the solver rename the leaves of types and the parameters of binders, and keep
everything else, up to the splicing of nested conjunctions.

* `Ty.Folded`, `Goal.Rel` — two types, or two goals, alike but for their leaves, and the
  parameters of their binders.
* `Grows.mapChildrenM`, `Lockstep.mapChildrenM`, `Defined.mapChildrenM` — one level of a type.
* `Goal.spliced`, `Goal.walk_spliced` — a traversal sees a goal up to splicing.
-/

namespace Sage

open Grow

/-! ### Types with related leaves -/

/-- A type that is not a leaf the traversals replace. -/
@[grind =] def Ty.Inner : Ty → Prop
  | .inferVar _ | .param _ => False
  | _ => True

theorem Ty.Inner.rigid {t : Ty} (h : t.Inner) : t.Rigid := by
  cases t <;> trivial

theorem Ty.Inner.subst {t : Ty} (h : t.Inner) (θ : InferVarIndex → Ty) : (t.subst θ).Inner := by
  cases t <;> first | exact h.elim | simp [Ty.subst, Ty.foldLeaves, Ty.Inner]

@[simp] theorem Ty.subst_param (p : GenericParam) (θ : InferVarIndex → Ty) :
    (Ty.param p).subst θ = .param p := by simp [Ty.subst, Ty.foldLeaves]

theorem Ty.cases_leaf (t : Ty) : t.Inner ∨ (∃ x, t = .inferVar x) ∨ ∃ p, t = .param p := by
  cases t <;> simp [Ty.Inner]

/-- Two skeletons alike but for their array lengths. -/
@[grind =] def Skeleton.Rel (K : Const → Const → Prop) : Skeleton → Skeleton → Prop
  | .array c, .array d => K c d
  | s, s' => s' = s

theorem Skeleton.rel_iff {K : Const → Const → Prop} {s s' : Skeleton} : s.Rel K s' ↔
    (∃ c d, s = .array c ∧ s' = .array d ∧ K c d) ∨ (∀ c, s ≠ .array c) ∧ s' = s := by
  constructor
  · intro h
    by_cases hs : ∃ c, s = .array c
    · obtain ⟨c, rfl⟩ := hs
      by_cases hs' : ∃ d, s' = .array d
      · obtain ⟨d, rfl⟩ := hs'
        exact .inl ⟨c, d, rfl, rfl, h⟩
      · refine absurd ?_ hs'
        cases s' <;> first | exact ⟨_, rfl⟩ | cases h
    · refine .inr ⟨fun c hc => hs ⟨c, hc⟩, ?_⟩
      cases s <;> first | exact absurd ⟨_, rfl⟩ hs | exact h
  · rintro (⟨c, d, rfl, rfl, h⟩ | ⟨hs, rfl⟩)
    · exact h
    · cases s' <;> first | rfl | exact absurd rfl (hs _)

/-- `u` is `t` with its sub-types and its array length replaced. -/
structure Ty.Rebuilt (R : Ty → Ty → Prop) (K : Const → Const → Prop) (t u : Ty) : Prop where
  inner : u.Inner
  skeleton : (decompose t).skeleton.Rel K (decompose u).skeleton
  children : List.Forall₂ R (decompose t).children (decompose u).children

/-- `u` is `t` with its variables, its parameters and its array lengths replaced. -/
inductive Ty.Folded (V : InferVarIndex → Ty → Prop) (P : GenericParam → Ty → Prop)
    (K : Const → Const → Prop) : Ty → Ty → Prop
  | var {x : InferVarIndex} {u : Ty} (h : V x u) : Ty.Folded V P K (.inferVar x) u
  | param {p : GenericParam} {u : Ty} (h : P p u) : Ty.Folded V P K (.param p) u
  | inner {t u : Ty} (ht : t.Inner) (hu : u.Inner)
      (hs : (decompose t).skeleton.Rel K (decompose u).skeleton)
      (hc : List.Forall₂ (Ty.Folded V P K) (decompose t).children (decompose u).children) :
      Ty.Folded V P K t u

theorem Skeleton.Rel.imp {K K' : Const → Const → Prop} {s s' : Skeleton} (h : s.Rel K s')
    (hK : ∀ c d, K c d → K' c d) : s.Rel K' s' := by
  rcases Skeleton.rel_iff.mp h with ⟨c, d, rfl, rfl, h⟩ | h
  · exact hK c d h
  · exact Skeleton.rel_iff.mpr (.inr h)

section Folded

variable {V V' : InferVarIndex → Ty → Prop} {P P' : GenericParam → Ty → Prop}
  {K K' : Const → Const → Prop} {t u : Ty}

@[simp] theorem Ty.folded_inferVar {x : InferVarIndex} :
    Ty.Folded V P K (.inferVar x) u ↔ V x u := by
  refine ⟨fun h => ?_, .var⟩
  cases h with
  | var h => exact h
  | inner ht _ _ _ => exact ht.elim

@[simp] theorem Ty.folded_param {p : GenericParam} : Ty.Folded V P K (.param p) u ↔ P p u := by
  refine ⟨fun h => ?_, .param⟩
  cases h with
  | param h => exact h
  | inner ht _ _ _ => exact ht.elim

theorem Ty.folded_inner (ht : t.Inner) :
    Ty.Folded V P K t u ↔ Ty.Rebuilt (Ty.Folded V P K) K t u := by
  refine ⟨fun h => ?_, fun h => .inner ht h.inner h.skeleton h.children⟩
  cases h with
  | var h => exact ht.elim
  | param h => exact ht.elim
  | inner _ hu hs hc => exact ⟨hu, hs, hc⟩

end Folded

/-! ### One level of a type -/

section Level

variable {σ τ : Type}

theorem Grows.mapChildrenM {le : σ → σ → Prop} [Std.Refl le] [IsTrans σ le] {P : σ → Prop} {f : Ty → StateT σ Option Ty}
    {k : Const → StateT σ Option Const} {R : σ → Ty → Ty → Prop} {K : σ → Const → Const → Prop}
    {t : Ty} (ht : t.Inner) (hP : Stable le P)
    (hf : ∀ c ∈ (decompose t).children, Grows le P (f c) fun s d => R s c d)
    (hk : ∀ c, (decompose t).skeleton = .array c → Grows le P (k c) fun s d => K s c d) :
    Grows le P (t.mapChildrenM f k) fun s u => Ty.Rebuilt (R s) (K s) t u := by
  have hlist : ∀ {Q : σ → Prop} {ts : List Ty}, (∀ s, Q s → P s) → Stable le Q →
      (∀ c ∈ ts, c ∈ (decompose t).children) →
      Grows le Q (ts.mapM f) fun s us => List.Forall₂ (R s) ts us := fun hQ hs hts =>
    .mapM hs fun c hc => (hf c (hts c hc)).weaken hQ
  rcases t with _ | _ | _ | _ | _ | _ | ⟨sym, args⟩ | (⟨sym, args⟩ | ⟨a, self, tr, targs, args⟩ |
    ⟨sym, args⟩) | ⟨inner, m, lt⟩ | elems | inner | ⟨inner, c⟩ | ⟨params, ret⟩ | _ | _ | _ | _
  case param p => exact ht.elim
  case inferVar x => exact ht.elim
  case adt =>
    refine .bind hP (hlist (fun _ => id) hP fun _ => id) fun us => .pure fun s u h hu => ?_
    have hus := h.2 u hu
    exact ⟨trivial, by simp [decompose, Skeleton.Rel, hus.length_eq], hus⟩
  case alias.named =>
    refine .bind hP (hlist (fun _ => id) hP fun _ => id) fun us => .pure fun s u h hu => ?_
    have hus := h.2 u hu
    exact ⟨trivial, by simp [decompose, Skeleton.Rel, hus.length_eq], hus⟩
  case alias.opaqueAlias =>
    refine .bind hP (hlist (fun _ => id) hP fun _ => id) fun us => .pure fun s u h hu => ?_
    have hus := h.2 u hu
    exact ⟨trivial, by simp [decompose, Skeleton.Rel, hus.length_eq], hus⟩
  case alias.associated =>
    refine .bind hP (hf self (by simp [decompose])) fun self' => ?_
    have hP₁ := hP.and (fun s d => R s self d) self'
    refine .bind hP₁ (hlist (fun _ h => h.1) hP₁ (by simp +contextual [decompose])) fun targs' => ?_
    have hP₂ := hP₁.and (fun s us => List.Forall₂ (R s) targs us) targs'
    refine .bind hP₂ (hlist (fun _ h => h.1.1) hP₂ (by simp +contextual [decompose]))
      fun args' => .pure fun s u h hu => ?_
    have htargs := h.1.2 u hu
    have hargs := h.2 u hu
    exact ⟨trivial, by simp [decompose, Skeleton.Rel, htargs.length_eq, hargs.length_eq],
      .cons (h.1.1.2 u hu) (List.rel_append htargs hargs)⟩
  case ref =>
    refine .bind hP (hf inner (by simp [decompose])) fun inner' => .pure fun s u h hu => ?_
    exact ⟨trivial, rfl, .cons (h.2 u hu) .nil⟩
  case tuple =>
    refine .bind hP (hlist (fun _ => id) hP fun _ => id) fun us => .pure fun s u h hu => ?_
    have hus := h.2 u hu
    exact ⟨trivial, by simp [decompose, Skeleton.Rel, hus.length_eq], hus⟩
  case slice =>
    refine .bind hP (hf inner (by simp [decompose])) fun inner' => .pure fun s u h hu => ?_
    exact ⟨trivial, rfl, .cons (h.2 u hu) .nil⟩
  case array =>
    refine .bind hP (hf inner (by simp [decompose])) fun inner' => ?_
    refine .bind (hP.and (fun s d => R s inner d) inner') ((hk c rfl).weaken fun _ h => h.1)
      fun c' => .pure fun s u h hu => ?_
    exact ⟨trivial, h.2 u hu, .cons (h.1.2 u hu) .nil⟩
  case fnPtr =>
    refine .bind hP (hlist (fun _ => id) hP (by simp +contextual [decompose])) fun params' => ?_
    refine .bind (hP.and (fun s us => List.Forall₂ (R s) params us) params')
      ((hf ret (by simp [decompose])).weaken fun _ h => h.1) fun ret' => .pure fun s u h hu => ?_
    have hparams := h.1.2 u hu
    exact ⟨trivial, by simp [decompose, Skeleton.Rel, hparams.length_eq],
      List.rel_append hparams (.cons (h.2 u hu) .nil)⟩
  all_goals exact .pure fun s u _ _ => ⟨trivial, rfl, .nil⟩

theorem forall₂_append_split {α β : Type} {R : α → β → Prop} {as bs : List α}
    {cs ds : List β} (h : List.Forall₂ R (as ++ bs) (cs ++ ds)) (hl : as.length = cs.length) :
    List.Forall₂ R as cs ∧ List.Forall₂ R bs ds := by
  have htake := List.forall₂_take as.length h
  have hdrop := List.forall₂_drop as.length h
  rw [List.take_left, hl, List.take_left] at htake
  rw [List.drop_left, hl, List.drop_left] at hdrop
  exact ⟨htake, hdrop⟩

theorem Lockstep.mapChildrenM {R : σ → τ → Prop} {f : Ty → StateT σ Option Ty}
    {g : Ty → StateT τ Option Ty} {k : Const → StateT σ Option Const}
    {l : Const → StateT τ Option Const} {t u : Ty} (ht : t.Inner)
    (h : Ty.Rebuilt (fun c d => Lockstep R (f c) (g d)) (fun c d => Lockstep R (k c) (l d)) t u) :
    Lockstep R (t.mapChildrenM f k) (u.mapChildrenM g l) := by
  obtain ⟨hu, hs, hc⟩ := h
  rcases t with _ | _ | _ | _ | _ | _ | ⟨sym, args⟩ | (⟨sym, args⟩ | ⟨a, self, tr, targs, args⟩ |
    ⟨sym, args⟩) | ⟨inner, m, lt⟩ | elems | inner | ⟨inner, c⟩ | ⟨params, ret⟩ | _ | _ | _ | _ <;>
  rcases u with _ | _ | _ | _ | _ | _ | ⟨sym', args'⟩ | (⟨sym', args'⟩ |
    ⟨a', self', tr', targs', args'⟩ | ⟨sym', args'⟩) | ⟨inner', m', lt'⟩ | elems' | inner' |
    ⟨inner', c'⟩ | ⟨params', ret'⟩ | _ | _ | _ | _ <;>
  simp only [decompose, leaf, Skeleton.Rel, reduceCtorEq, Skeleton.adt.injEq, Skeleton.int.injEq,
    Skeleton.uint.injEq, Skeleton.float.injEq, Skeleton.namedAlias.injEq, Skeleton.tuple.injEq,
    Skeleton.associatedAlias.injEq, Skeleton.opaqueAlias.injEq, Skeleton.ref.injEq,
    Skeleton.fnPtr.injEq] at hs
  case param.param => exact ht.elim
  case inferVar.inferVar => exact ht.elim
  case adt.adt =>
    obtain ⟨rfl, -⟩ := hs
    exact (Lockstep.mapM hc).bind fun as => .pure _
  case alias.named.alias.named =>
    obtain ⟨rfl, -⟩ := hs
    exact (Lockstep.mapM hc).bind fun as => .pure _
  case alias.opaqueAlias.alias.opaqueAlias =>
    obtain ⟨rfl, -⟩ := hs
    exact (Lockstep.mapM hc).bind fun as => .pure _
  case alias.associated.alias.associated =>
    obtain ⟨rfl, rfl, hl, -⟩ := hs
    cases hc with
    | cons hself hrest =>
        obtain ⟨htargs, hargs⟩ := forall₂_append_split hrest hl.symm
        exact hself.bind fun t => (Lockstep.mapM htargs).bind fun ts =>
          (Lockstep.mapM hargs).bind fun as => .pure _
  case ref.ref =>
    obtain ⟨rfl, -⟩ := hs
    cases lt
    cases lt'
    cases hc with
    | cons hinner _ => exact hinner.bind fun t => .pure _
  case tuple.tuple => exact (Lockstep.mapM hc).bind fun as => .pure _
  case slice.slice =>
    cases hc with
    | cons hinner _ => exact hinner.bind fun t => .pure _
  case array.array =>
    cases hc with
    | cons hinner _ => exact hinner.bind fun t => hs.bind fun c => .pure _
  case fnPtr.fnPtr =>
    obtain ⟨hparams, hret⟩ := forall₂_append_split hc hs.symm
    cases hret with
    | cons hret _ => exact (Lockstep.mapM hparams).bind fun as => hret.bind fun t => .pure _
  all_goals
    cases hs
    exact .pure _

theorem Defined.mapChildrenM {f : Ty → StateT σ Option Ty} {k : Const → StateT σ Option Const}
    (hk : ∀ c, Defined (k c)) : (t : Ty) →
    (∀ c ∈ (decompose t).children, Defined (f c)) → Defined (t.mapChildrenM f k)
  | .adt _ args, h => (Defined.mapM h).bind fun _ => .pure _
  | .alias (.named _ args), h => (Defined.mapM h).bind fun _ => .pure _
  | .alias (.opaqueAlias _ args), h => (Defined.mapM h).bind fun _ => .pure _
  | .alias (.associated _ self _ targs args), h => by
      have hargs : ∀ c ∈ targs ++ args, Defined (f c) := fun c hc => h c (List.mem_cons_of_mem _ hc)
      refine (h self List.mem_cons_self).bind fun _ => ?_
      refine (Defined.mapM fun c hc => hargs c (List.mem_append_left _ hc)).bind fun _ => ?_
      exact (Defined.mapM fun c hc => hargs c (List.mem_append_right _ hc)).bind fun _ => .pure _
  | .ref inner _ _, h => (h inner List.mem_cons_self).bind fun _ => .pure _
  | .tuple _, h => (Defined.mapM h).bind fun _ => .pure _
  | .slice inner, h => (h inner List.mem_cons_self).bind fun _ => .pure _
  | .array inner c, h => (h inner List.mem_cons_self).bind fun _ => (hk c).bind fun _ => .pure _
  | .fnPtr params ret, h => by
      refine (Defined.mapM fun c hc => h c (List.mem_append_left [ret] hc)).bind fun _ => ?_
      exact (h ret (List.mem_append_right params List.mem_cons_self)).bind fun _ => .pure _
  | .bool, _ | .char, _ | .int _, _ | .uint _, _ | .float _, _ | .str, _ | .param _, _
  | .inferVar _, _ | .never, _ | .error _, _ => .pure _

end Level

/-! ### Goals with related parts -/

section Parts

variable (T : Ty → Ty → Prop)

structure TraitRef.Rel (r r' : TraitRef) : Prop where
  traitSym : r'.traitSym = r.traitSym
  args : List.Forall₂ T r.args r'.args

structure WherePredicate.Rel (p p' : WherePredicate) : Prop where
  selfTy : T p.selfTy p'.selfTy
  traitRef : p.traitRef.Rel T p'.traitRef

def Atom.Rel : Atom → Atom → Prop
  | .traitImpl t r, .traitImpl t' r' => T t t' ∧ r.Rel T r'
  | .equals l r, .equals l' r' => T l l' ∧ T r r'
  | _, _ => False

def AliasTy.Rel : AliasTy → AliasTy → Prop
  | .named sym args, .named sym' args' => sym' = sym ∧ List.Forall₂ T args args'
  | .associated a t tr targs args, .associated a' t' tr' targs' args' =>
      a' = a ∧ tr' = tr ∧ T t t' ∧ List.Forall₂ T targs targs' ∧ List.Forall₂ T args args'
  | .opaqueAlias sym args, .opaqueAlias sym' args' => sym' = sym ∧ List.Forall₂ T args args'
  | _, _ => False

end Parts

section Rel

/- `T` relates types and `E` the parameters of binders, in a scope of the type `β`. -/
variable {β : Type} (enter : β → List GenericParam → List GenericParam → β)
  (T : β → Ty → Ty → Prop) (E : β → List GenericParam → List GenericParam → Prop)

mutual

/-- Two goals alike but for related types and binders. -/
inductive Goal.Rel : β → Goal → Goal → Prop
  | exists {b : β} {gs gs' : List GenericParam} {g g' : Goal} (hgs : E b gs gs')
      (h : Goal.Rel (enter b gs gs') g g') : Goal.Rel b (.exists gs g) (.exists gs' g')
  | implies {b : β} {as as' : List Assumption} {g g' : Goal} (has : RelAssumptions b as as')
      (h : Goal.Rel b g g') : Goal.Rel b (.implies as g) (.implies as' g')
  | all {b : β} {gs gs' : List Goal} (h : RelGoals b gs gs') : Goal.Rel b (.all gs) (.all gs')
  | atom {b : β} {a a' : Atom} (h : a.Rel (T b) a') : Goal.Rel b (.atom a) (.atom a')
  | maybe {b : β} : Goal.Rel b .maybe .maybe

inductive Assumption.Rel : β → Assumption → Assumption → Prop
  | traitImpl {b : β} {t t' : Ty} {r r' : TraitRef} (ht : T b t t') (hr : r.Rel (T b) r') :
      Assumption.Rel b (.traitImpl t r) (.traitImpl t' r')
  | normalizesTo {b : β} {a a' : AliasTy} {t t' : Ty} (ha : a.Rel (T b) a') (ht : T b t t') :
      Assumption.Rel b (.normalizesTo a t) (.normalizesTo a' t')
  | implies {b : β} {gs gs' : List Goal} {p p' : WherePredicate} (hgs : RelGoals b gs gs')
      (hp : p.Rel (T b) p') : Assumption.Rel b (.implies gs p) (.implies gs' p')
  | all {b : β} {as as' : List Assumption} (h : RelAssumptions b as as') :
      Assumption.Rel b (.all as) (.all as')

inductive RelGoals : β → List Goal → List Goal → Prop
  | nil {b : β} : RelGoals b [] []
  | cons {b : β} {g g' : Goal} {gs gs' : List Goal} (h : Goal.Rel b g g')
      (hs : RelGoals b gs gs') : RelGoals b (g :: gs) (g' :: gs')

inductive RelAssumptions : β → List Assumption → List Assumption → Prop
  | nil {b : β} : RelAssumptions b [] []
  | cons {b : β} {a a' : Assumption} {as as' : List Assumption} (h : Assumption.Rel b a a')
      (hs : RelAssumptions b as as') : RelAssumptions b (a :: as) (a' :: as')

end

def SolverGoal.Rel (b : β) : SolverGoal → SolverGoal → Prop
  | .prove g, .prove g' => g.Rel enter T E b g'
  | .normalize a, .normalize a' => a.Rel (T b) a'
  | _, _ => False

end Rel

section Join

/- `J` ties the scopes of two goals over a third to the scope of a relation between the two. -/
variable {β β₁ β₂ : Type} {enter : β → List GenericParam → List GenericParam → β}
  {enter₁ : β₁ → List GenericParam → List GenericParam → β₁}
  {enter₂ : β₂ → List GenericParam → List GenericParam → β₂} {T : β → Ty → Ty → Prop}
  {T₁ : β₁ → Ty → Ty → Prop} {T₂ : β₂ → Ty → Ty → Prop}
  {E : β → List GenericParam → List GenericParam → Prop}
  {E₁ : β₁ → List GenericParam → List GenericParam → Prop}
  {E₂ : β₂ → List GenericParam → List GenericParam → Prop} {J : β₁ → β₂ → β → Prop}

theorem forall₂_join {α γ δ : Type} {R : α → γ → Prop} {R₁ : α → δ → Prop} {R₂ : γ → δ → Prop}
    (h : ∀ a c d, R₁ a d → R₂ c d → R a c) : ∀ {as : List α} {cs : List γ} {ds : List δ},
    List.Forall₂ R₁ as ds → List.Forall₂ R₂ cs ds → List.Forall₂ R as cs
  | _, _, _, .nil, .nil => .nil
  | _, _, _, .cons h₁ t₁, .cons h₂ t₂ => .cons (h _ _ _ h₁ h₂) (forall₂_join h t₁ t₂)

section Parts

variable {R R₁ R₂ : Ty → Ty → Prop} (h : ∀ t u d, R₁ t d → R₂ u d → R t u)
include h

theorem TraitRef.Rel.join {r₁ r₂ d : TraitRef} (h₁ : r₁.Rel R₁ d) (h₂ : r₂.Rel R₂ d) :
    r₁.Rel R r₂ :=
  ⟨h₂.traitSym.symm.trans h₁.traitSym, forall₂_join h h₁.args h₂.args⟩

theorem WherePredicate.Rel.join {p₁ p₂ d : WherePredicate} (h₁ : p₁.Rel R₁ d)
    (h₂ : p₂.Rel R₂ d) : p₁.Rel R p₂ :=
  ⟨h _ _ _ h₁.selfTy h₂.selfTy, h₁.traitRef.join h h₂.traitRef⟩

theorem Atom.Rel.join : {a₁ a₂ d : Atom} → a₁.Rel R₁ d → a₂.Rel R₂ d → a₁.Rel R a₂
  | .traitImpl _ _, .traitImpl _ _, .traitImpl _ _, h₁, h₂ =>
      ⟨h _ _ _ h₁.1 h₂.1, h₁.2.join h h₂.2⟩
  | .equals _ _, .equals _ _, .equals _ _, h₁, h₂ => ⟨h _ _ _ h₁.1 h₂.1, h _ _ _ h₁.2 h₂.2⟩

theorem AliasTy.Rel.join {a₁ a₂ d : AliasTy} (h₁ : a₁.Rel R₁ d) (h₂ : a₂.Rel R₂ d) :
    a₁.Rel R a₂ := by
  cases d <;> cases a₁ <;> first | exact h₁.elim | skip
  all_goals cases a₂ <;> first | exact h₂.elim | skip
  case named => exact ⟨h₂.1.symm.trans h₁.1, forall₂_join h h₁.2 h₂.2⟩
  case associated =>
    obtain ⟨e₁, f₁, s₁, t₁, as₁⟩ := h₁
    obtain ⟨e₂, f₂, s₂, t₂, as₂⟩ := h₂
    exact ⟨e₂.symm.trans e₁, f₂.symm.trans f₁, h _ _ _ s₁ s₂, forall₂_join h t₁ t₂,
      forall₂_join h as₁ as₂⟩
  case opaqueAlias => exact ⟨h₂.1.symm.trans h₁.1, forall₂_join h h₁.2 h₂.2⟩

end Parts

variable (hT : ∀ b₁ b₂ b, J b₁ b₂ b → ∀ t u d, T₁ b₁ t d → T₂ b₂ u d → T b t u)
  (hE : ∀ b₁ b₂ b, J b₁ b₂ b → ∀ gs gs' ds, E₁ b₁ gs ds → E₂ b₂ gs' ds →
    E b gs gs' ∧ J (enter₁ b₁ gs ds) (enter₂ b₂ gs' ds) (enter b gs gs'))
include hT hE

set_option linter.unusedSectionVars false

mutual

/-- Two goals over a common third are related to each other. -/
theorem Goal.Rel.join {b₁ : β₁} {b₂ : β₂} {b : β} (hJ : J b₁ b₂ b) : (g₁ g₂ d : Goal) →
    g₁.Rel enter₁ T₁ E₁ b₁ d → g₂.Rel enter₂ T₂ E₂ b₂ d → g₁.Rel enter T E b g₂
  | .exists _ g₁, g₂, d, h₁, h₂ => by
      cases h₁ with
      | @«exists» _ gs ds _ d hgs₁ h₁ =>
          cases h₂ with
          | @«exists» _ gs' _ g₂ _ hgs₂ h₂ =>
              obtain ⟨hgs, hJ⟩ := hE b₁ b₂ b hJ _ _ _ hgs₁ hgs₂
              exact .exists hgs (Goal.Rel.join hJ g₁ g₂ d h₁ h₂)
  | .implies as₁ g₁, g₂, d, h₁, h₂ => by
      cases h₁ with
      | @implies _ _ ds _ d has₁ h₁ =>
          cases h₂ with
          | @implies _ as₂ _ g₂ _ has₂ h₂ =>
              exact .implies (RelAssumptions.join hJ as₁ as₂ ds has₁ has₂)
                (Goal.Rel.join hJ g₁ g₂ d h₁ h₂)
  | .all gs₁, g₂, d, h₁, h₂ => by
      cases h₁ with
      | @all _ _ ds h₁ =>
          cases h₂ with
          | @all _ gs₂ _ h₂ => exact .all (RelGoals.join hJ gs₁ gs₂ ds h₁ h₂)
  | .atom a, g₂, d, h₁, h₂ => by
      cases h₁ with
      | atom h₁ =>
          cases h₂ with
          | atom h₂ => exact .atom (Atom.Rel.join (hT b₁ b₂ b hJ) h₁ h₂)
  | .maybe, g₂, d, h₁, h₂ => by
      cases h₁
      cases h₂
      exact .maybe

theorem Assumption.Rel.join {b₁ : β₁} {b₂ : β₂} {b : β} (hJ : J b₁ b₂ b) :
    (a₁ a₂ d : Assumption) → a₁.Rel enter₁ T₁ E₁ b₁ d → a₂.Rel enter₂ T₂ E₂ b₂ d →
      a₁.Rel enter T E b a₂
  | .traitImpl _ _, a₂, d, h₁, h₂ => by
      cases h₁ with
      | traitImpl t₁ r₁ =>
          cases h₂ with
          | traitImpl t₂ r₂ =>
              exact .traitImpl (hT b₁ b₂ b hJ _ _ _ t₁ t₂) (TraitRef.Rel.join (hT b₁ b₂ b hJ) r₁ r₂)
  | .normalizesTo _ _, a₂, d, h₁, h₂ => by
      cases h₁ with
      | normalizesTo a₁ t₁ =>
          cases h₂ with
          | normalizesTo a₂ t₂ =>
              exact .normalizesTo (AliasTy.Rel.join (hT b₁ b₂ b hJ) a₁ a₂)
                (hT b₁ b₂ b hJ _ _ _ t₁ t₂)
  | .implies gs₁ _, a₂, d, h₁, h₂ => by
      cases h₁ with
      | @implies _ _ ds _ _ hgs₁ p₁ =>
          cases h₂ with
          | @implies _ gs₂ _ _ _ hgs₂ p₂ =>
              exact .implies (RelGoals.join hJ gs₁ gs₂ ds hgs₁ hgs₂)
                (WherePredicate.Rel.join (hT b₁ b₂ b hJ) p₁ p₂)
  | .all as₁, a₂, d, h₁, h₂ => by
      cases h₁ with
      | @all _ _ ds h₁ =>
          cases h₂ with
          | @all _ as₂ _ h₂ => exact .all (RelAssumptions.join hJ as₁ as₂ ds h₁ h₂)

theorem RelGoals.join {b₁ : β₁} {b₂ : β₂} {b : β} (hJ : J b₁ b₂ b) : (gs₁ gs₂ ds : List Goal) →
    RelGoals enter₁ T₁ E₁ b₁ gs₁ ds → RelGoals enter₂ T₂ E₂ b₂ gs₂ ds →
      RelGoals enter T E b gs₁ gs₂
  | [], gs₂, ds, h₁, h₂ => by
      cases h₁
      cases h₂
      exact .nil
  | g₁ :: gs₁, gs₂, ds, h₁, h₂ => by
      cases h₁ with
      | @cons _ _ d _ ds h₁ hs₁ =>
          cases h₂ with
          | @cons _ g₂ _ gs₂ _ h₂ hs₂ =>
              exact .cons (Goal.Rel.join hJ g₁ g₂ d h₁ h₂) (RelGoals.join hJ gs₁ gs₂ ds hs₁ hs₂)

theorem RelAssumptions.join {b₁ : β₁} {b₂ : β₂} {b : β} (hJ : J b₁ b₂ b) :
    (as₁ as₂ ds : List Assumption) → RelAssumptions enter₁ T₁ E₁ b₁ as₁ ds →
      RelAssumptions enter₂ T₂ E₂ b₂ as₂ ds → RelAssumptions enter T E b as₁ as₂
  | [], as₂, ds, h₁, h₂ => by
      cases h₁
      cases h₂
      exact .nil
  | a₁ :: as₁, as₂, ds, h₁, h₂ => by
      cases h₁ with
      | @cons _ _ d _ ds h₁ hs₁ =>
          cases h₂ with
          | @cons _ a₂ _ as₂ _ h₂ hs₂ =>
              exact .cons (Assumption.Rel.join hJ a₁ a₂ d h₁ h₂)
                (RelAssumptions.join hJ as₁ as₂ ds hs₁ hs₂)

end

theorem SolverGoal.Rel.join {b₁ : β₁} {b₂ : β₂} {b : β} (hJ : J b₁ b₂ b) {g₁ g₂ d : SolverGoal}
    (h₁ : g₁.Rel enter₁ T₁ E₁ b₁ d) (h₂ : g₂.Rel enter₂ T₂ E₂ b₂ d) :
    g₁.Rel enter T E b g₂ := by
  cases d <;> cases g₁ <;> first | exact h₁.elim | skip
  all_goals cases g₂ <;> first | exact h₂.elim | skip
  case prove => exact Goal.Rel.join hT hE hJ _ _ _ h₁ h₂
  case normalize => exact AliasTy.Rel.join (hT b₁ b₂ b hJ) h₁ h₂

end Join

/-! ### Splicing -/

section Splice

mutual

/-- The goal with its nested conjunctions spliced in. -/
def Goal.spliced : Goal → Goal
  | .exists gs g => .exists gs (Goal.spliced g)
  | .implies as g => .implies (Assumption.flatten (splicedAssumptions as)) (Goal.spliced g)
  | .all gs => Goal.mkAll (splicedGoals gs)
  | .atom a => .atom a
  | .maybe => .maybe

def Assumption.spliced : Assumption → Assumption
  | .traitImpl t r => .traitImpl t r
  | .normalizesTo a t => .normalizesTo a t
  | .implies gs p => .implies (splicedGoals gs) p
  | .all as => .all (Assumption.flatten (splicedAssumptions as))

def splicedGoals : List Goal → List Goal
  | [] => []
  | g :: gs => Goal.spliced g :: splicedGoals gs

def splicedAssumptions : List Assumption → List Assumption
  | [] => []
  | a :: as => Assumption.spliced a :: splicedAssumptions as

end

def SolverGoal.spliced : SolverGoal → SolverGoal
  | .prove g => .prove g.spliced
  | .normalize a => .normalize a

/-- A goal that is not a conjunction. -/
def Goal.Single : Goal → Prop
  | .all _ => False
  | _ => True

mutual

/-- No conjunction stands directly in a conjunction. -/
@[grind =] def Goal.Flat : Goal → Prop
  | .exists _ g => Goal.Flat g
  | .implies as g => FlatAssumptions as ∧ Goal.Flat g
  | .all gs => FlatGoals gs ∧ ∀ g ∈ gs, g.Single
  | .atom _ => True
  | .maybe => True

def Assumption.Flat : Assumption → Prop
  | .traitImpl _ _ => True
  | .normalizesTo _ _ => True
  | .implies gs _ => FlatGoals gs
  | .all _ => False

def FlatGoals : List Goal → Prop
  | [] => True
  | g :: gs => Goal.Flat g ∧ FlatGoals gs

def FlatAssumptions : List Assumption → Prop
  | [] => True
  | a :: as => Assumption.Flat a ∧ FlatAssumptions as

end

theorem splicedGoals_eq_map (gs : List Goal) : splicedGoals gs = gs.map Goal.spliced := by
  induction gs with
  | nil => rfl
  | cons g gs ih => simp [splicedGoals, ih]

theorem splicedAssumptions_eq_map (as : List Assumption) :
    splicedAssumptions as = as.map Assumption.spliced := by
  induction as with
  | nil => rfl
  | cons a as ih => simp [splicedAssumptions, ih]

theorem flatGoals_iff {gs : List Goal} : FlatGoals gs ↔ ∀ g ∈ gs, g.Flat := by
  induction gs with
  | nil => simp [FlatGoals]
  | cons g gs ih => simp [FlatGoals, ih]

theorem flatAssumptions_iff {as : List Assumption} : FlatAssumptions as ↔ ∀ a ∈ as, a.Flat := by
  induction as with
  | nil => simp [FlatAssumptions]
  | cons a as ih => simp [FlatAssumptions, ih]

/-- Splicing a list that is spliced already changes nothing. -/
theorem flatMap_self {α : Type} {k : α → List α} {xs : List α} (h : ∀ x ∈ xs, k x = [x]) :
    xs.flatMap k = xs := by
  rw [List.flatMap_congr h]
  simp

theorem Goal.Single.conjuncts_eq {g : Goal} (h : g.Single) : g.conjuncts = [g] := by
  cases g with
  | all gs => exact h.elim
  | «exists» | implies | atom | maybe => rfl

theorem flatMap_conjuncts_self {gs : List Goal} (h : ∀ g ∈ gs, g.Single) :
    gs.flatMap Goal.conjuncts = gs := flatMap_self fun g hg => (h g hg).conjuncts_eq

mutual

theorem Goal.single_of_mem : (g : Goal) → ∀ h ∈ g.conjuncts, h.Single
  | .all gs, h, hm => single_of_mem_flatMap gs h (by simpa [Goal.conjuncts] using hm)
  | .exists _ _, h, hm | .implies _ _, h, hm | .atom _, h, hm | .maybe, h, hm => by
      obtain rfl := List.mem_singleton.mp (by simpa [Goal.conjuncts] using hm)
      trivial

theorem single_of_mem_flatMap : (gs : List Goal) → ∀ h ∈ gs.flatMap Goal.conjuncts, h.Single
  | g :: gs, h, hm => by
      rw [List.flatMap_cons] at hm
      rcases List.mem_append.mp hm with hm | hm
      · exact Goal.single_of_mem g h hm
      · exact single_of_mem_flatMap gs h hm

end

mutual

theorem Assumption.facts_of_mem : (a : Assumption) → ∀ f ∈ a.facts, f.facts = [f]
  | .all as, f, hm => factsList_of_mem as f (by simpa [Assumption.facts] using hm)
  | .traitImpl _ _, f, hm | .normalizesTo _ _, f, hm | .implies _ _, f, hm => by
      obtain rfl := List.mem_singleton.mp (by simpa [Assumption.facts] using hm)
      rfl

theorem factsList_of_mem : (as : List Assumption) → ∀ f ∈ as.flatMap Assumption.facts, f.facts = [f]
  | a :: as, f, hm => by
      rw [List.flatMap_cons] at hm
      rcases List.mem_append.mp hm with hm | hm
      · exact Assumption.facts_of_mem a f hm
      · exact factsList_of_mem as f hm

end

theorem Assumption.flatten_eq (as : List Assumption) :
    Assumption.flatten as = as.flatMap Assumption.facts := Assumption.factsList_eq_flatMap as

theorem Assumption.flatten_flatten (as : List Assumption) :
    Assumption.flatten (Assumption.flatten as) = Assumption.flatten as := by
  simp only [flatten_eq]
  exact flatMap_self (factsList_of_mem as)

theorem Assumption.Flat.facts_eq {a : Assumption} (h : a.Flat) : a.facts = [a] := by
  cases a with
  | all as => exact h.elim
  | traitImpl | normalizesTo | implies => rfl

theorem Goal.Flat.conjuncts {g : Goal} (h : g.Flat) : ∀ c ∈ g.conjuncts, c.Flat := by
  intro c hc
  cases g with
  | all gs =>
      obtain ⟨hgs, hall⟩ := by simpa only [Goal.Flat, flatGoals_iff] using h
      have hc : c ∈ gs := by
        have hc : c ∈ gs.flatMap Goal.conjuncts := by simpa [Goal.conjuncts] using hc
        rwa [flatMap_conjuncts_self hall] at hc
      exact hgs c hc
  | «exists» | implies | atom | maybe =>
      obtain rfl := List.mem_singleton.mp (by simpa [Goal.conjuncts] using hc)
      exact h

theorem flat_mkAll {gs : List Goal} (h : ∀ g ∈ gs, g.Flat) : (Goal.mkAll gs).Flat := by
  simp only [Goal.mkAll, Goal.conjunctsList_eq_flatMap, Goal.Flat, flatGoals_iff]
  refine ⟨fun c hc => ?_, single_of_mem_flatMap gs⟩
  obtain ⟨g, hg, hc⟩ := List.mem_flatMap.mp hc
  exact (h g hg).conjuncts c hc

mutual

theorem Goal.flat_spliced : (g : Goal) → g.spliced.Flat
  | .exists _ g => by simpa [Goal.spliced, Goal.Flat] using g.flat_spliced
  | .implies as g => by
      simp only [Goal.spliced, Goal.Flat]
      exact ⟨flatAssumptions_iff.mpr (flat_flatten as), g.flat_spliced⟩
  | .all gs => by
      simp only [Goal.spliced]
      exact flat_mkAll (flat_splicedGoals gs)
  | .atom _ => by simp [Goal.spliced, Goal.Flat]
  | .maybe => by simp [Goal.spliced, Goal.Flat]

theorem Assumption.flat_facts_spliced : (a : Assumption) → ∀ f ∈ a.spliced.facts, f.Flat
  | .traitImpl _ _, f, hf | .normalizesTo _ _, f, hf => by
      obtain rfl := List.mem_singleton.mp (by simpa [Assumption.spliced, Assumption.facts] using hf)
      trivial
  | .implies gs _, f, hf => by
      obtain rfl := List.mem_singleton.mp (by simpa [Assumption.spliced, Assumption.facts] using hf)
      exact flatGoals_iff.mpr (flat_splicedGoals gs)
  | .all as, f, hf => by
      simp only [Assumption.spliced, Assumption.facts, Assumption.factsList_eq_flatMap] at hf
      obtain ⟨g, hg, hf⟩ := List.mem_flatMap.mp hf
      have hflat := flat_flatten as g hg
      obtain rfl := List.mem_singleton.mp (hflat.facts_eq ▸ hf)
      exact hflat

theorem flat_splicedGoals : (gs : List Goal) → ∀ g ∈ splicedGoals gs, g.Flat
  | g :: gs, h, hh => by
      rcases List.mem_cons.mp (by simpa only [splicedGoals] using hh) with rfl | hh
      · exact g.flat_spliced
      · exact flat_splicedGoals gs h hh

theorem flat_flatten : (as : List Assumption) →
    ∀ f ∈ Assumption.flatten (splicedAssumptions as), f.Flat
  | a :: as, f, hf => by
      simp only [Assumption.flatten, splicedAssumptions, Assumption.factsList] at hf
      rcases List.mem_append.mp hf with hf | hf
      · exact a.flat_facts_spliced f hf
      · exact flat_flatten as f hf

end

section Walk

set_option linter.unusedSectionVars false

variable {M : Type → Type} [Monad M] [LawfulMonad M] (w : Walker M)

theorem walkGoals_eq_mapM (b : Binders) (gs : List Goal) :
    walkGoals w b gs = gs.mapM (Goal.walk w b) := by
  induction gs with
  | nil => simp [walkGoals]
  | cons g gs ih => simp [walkGoals, ih]

theorem walkAssumptions_eq_mapM (b : Binders) (as : List Assumption) :
    walkAssumptions w b as = as.mapM (Assumption.walk w b) := by
  induction as with
  | nil => simp [walkAssumptions]
  | cons a as ih => simp [walkAssumptions, ih]

theorem mapM_congr {α β : Type} {f g : α → M β} {xs : List α} (h : ∀ x ∈ xs, f x = g x) :
    xs.mapM f = xs.mapM g := by
  induction xs with
  | nil => rfl
  | cons x xs ih =>
      rw [List.mapM_cons, List.mapM_cons, h x List.mem_cons_self,
        ih fun y hy => h y (List.mem_cons_of_mem x hy)]

/-- Splicing the results of a loop, element by element. -/
theorem map_mapM_flatMap {α β : Type} {f : α → M β} {g : α → List α} {k : β → List β}
    (xs : List α) (h : ∀ x ∈ xs, k <$> f x = (List.flatMap k) <$> (g x).mapM f) :
    (List.flatMap k) <$> xs.mapM f = (List.flatMap k) <$> (xs.flatMap g).mapM f := by
  induction xs with
  | nil => simp
  | cons x xs ih =>
      have hx := h x List.mem_cons_self
      have ih := ih fun y hy => h y (List.mem_cons_of_mem x hy)
      have hcons : (List.flatMap k) <$> (x :: xs).mapM f =
          (do let a ← k <$> f x; let b ← (List.flatMap k) <$> xs.mapM f; pure (a ++ b)) := by
        simp
      have happ : (List.flatMap k) <$> ((x :: xs).flatMap g).mapM f =
          (do let a ← (List.flatMap k) <$> (g x).mapM f
              let b ← (List.flatMap k) <$> (xs.flatMap g).mapM f
              pure (a ++ b)) := by
        simp [List.mapM_append]
      rw [hcons, happ, hx, ih]

/-- What a traversal of an unspliced goal, or assumption, contributes to the list it stands in. -/
theorem map_singleton_mapM {α β : Type} {f : α → M β} {x : α} {k : β → List β} :
    (List.flatMap k) <$> [x].mapM f = k <$> f x := by
  simp

theorem flatten_walkAssumptions (b : Binders) {as : List Assumption}
    (h : ∀ a ∈ as, Assumption.facts <$> a.walk w b =
      (List.flatMap Assumption.facts) <$> a.spliced.facts.mapM (Assumption.walk w b)) :
    Assumption.flatten <$> walkAssumptions w b as =
      Assumption.flatten <$> walkAssumptions w b (Assumption.flatten (splicedAssumptions as)) := by
  have hmap : as.flatMap (fun a => a.spliced.facts) = Assumption.flatten (splicedAssumptions as) := by
    rw [Assumption.flatten_eq, splicedAssumptions_eq_map, List.flatMap_map]
  have hflatten : Assumption.flatten = List.flatMap Assumption.facts :=
    funext Assumption.flatten_eq
  rw [walkAssumptions_eq_mapM, walkAssumptions_eq_mapM, hflatten, map_mapM_flatMap as h, hmap,
    hflatten]

mutual

theorem Goal.walk_spliced (b : Binders) : (g : Goal) → g.walk w b = g.spliced.walk w b ∧
    Goal.conjuncts <$> g.walk w b =
      (List.flatMap Goal.conjuncts) <$> g.spliced.conjuncts.mapM (Goal.walk w b)
  | .exists gs g => by
      have h : (Goal.exists gs g).walk w b = (Goal.exists gs g).spliced.walk w b := by
        simp only [Goal.spliced, Goal.walk]
        exact bind_congr fun targets => by rw [(Goal.walk_spliced (b.enter gs targets) g).1]
      refine ⟨h, ?_⟩
      rw [h, Goal.spliced, Goal.conjuncts, map_singleton_mapM]
  | .implies as g => by
      have h : (Goal.implies as g).walk w b = (Goal.implies as g).spliced.walk w b := by
        have has := flatten_walkAssumptions w b (walkAssumptions_facts b as)
        simp only [Goal.spliced, Goal.walk, (Goal.walk_spliced b g).1]
        have hbind : ∀ x : M (List Assumption),
            (do let as ← x
                pure (Goal.implies (Assumption.flatten as) (← g.spliced.walk w b))) =
            (do let as ← Assumption.flatten <$> x
                pure (Goal.implies as (← g.spliced.walk w b))) := fun x => by simp
        rw [hbind, hbind, has]
      refine ⟨h, ?_⟩
      rw [h, Goal.spliced, Goal.conjuncts, map_singleton_mapM]
  | .all gs => by
      have hgs := map_mapM_flatMap gs fun g hg => (walkGoals_spliced b gs g hg).2
      have hall : ∀ hs : List Goal, (Goal.all hs).walk w b =
          Goal.all <$> (List.flatMap Goal.conjuncts) <$> hs.mapM (Goal.walk w b) := fun hs => by
        simp [Goal.walk, walkGoals_eq_mapM, Goal.mkAll]
      have hspliced : (Goal.all gs).spliced = .all (gs.flatMap fun g => g.spliced.conjuncts) := by
        simp [Goal.spliced, Goal.mkAll, splicedGoals_eq_map, List.flatMap_map]
      refine ⟨by rw [hspliced, hall, hall, hgs], ?_⟩
      have hconj : ∀ x : M (List Goal), Goal.conjuncts <$> Goal.all <$>
          (List.flatMap Goal.conjuncts) <$> x = (List.flatMap Goal.conjuncts) <$> x := fun x => by
        simp [Goal.conjuncts, flatMap_conjuncts_self (single_of_mem_flatMap _)]
      have hself : (gs.flatMap fun g => g.spliced.conjuncts).flatMap Goal.conjuncts =
          gs.flatMap fun g => g.spliced.conjuncts := by
        refine flatMap_conjuncts_self fun g hg => ?_
        obtain ⟨h, -, hg⟩ := List.mem_flatMap.mp hg
        exact h.spliced.single_of_mem g hg
      rw [hall, hconj, hgs, hspliced, Goal.conjuncts, Goal.conjunctsList_eq_flatMap, hself]
  | .atom a => by simp [Goal.spliced, Goal.conjuncts]
  | .maybe => by simp [Goal.spliced, Goal.conjuncts]

theorem Assumption.walk_spliced (b : Binders) : (a : Assumption) →
    Assumption.facts <$> a.walk w b =
      (List.flatMap Assumption.facts) <$> a.spliced.facts.mapM (Assumption.walk w b)
  | .traitImpl t r => by rw [Assumption.spliced, Assumption.facts, map_singleton_mapM]
  | .normalizesTo a t => by rw [Assumption.spliced, Assumption.facts, map_singleton_mapM]
  | .implies gs p => by
      rw [Assumption.spliced, Assumption.facts, map_singleton_mapM]
      have hgs : gs.mapM (Goal.walk w b) = (gs.map Goal.spliced).mapM (Goal.walk w b) := by
        rw [List.mapM_map]
        exact mapM_congr fun g hg => (walkGoals_spliced b gs g hg).1
      simp only [Assumption.walk, walkGoals_eq_mapM, splicedGoals_eq_map, hgs]
  | .all as => by
      have has := flatten_walkAssumptions w b (walkAssumptions_facts b as)
      have hfacts : ∀ x : M (List Assumption), Assumption.facts <$>
          (do pure (Assumption.all (Assumption.flatten (← x)))) = Assumption.flatten <$> x :=
        fun x => by simp [Assumption.facts, ← Assumption.flatten_eq, Assumption.flatten_flatten]
      have hspliced : (Assumption.all as).spliced.facts =
          Assumption.flatten (splicedAssumptions as) := by
        simp only [Assumption.spliced, Assumption.facts]
        exact Assumption.flatten_flatten _
      rw [Assumption.walk, hfacts, has, hspliced, walkAssumptions_eq_mapM]
      exact congrArg (· <$> _) (funext Assumption.flatten_eq)

theorem walkGoals_spliced (b : Binders) : (gs : List Goal) → ∀ g ∈ gs,
    g.walk w b = g.spliced.walk w b ∧ Goal.conjuncts <$> g.walk w b =
      (List.flatMap Goal.conjuncts) <$> g.spliced.conjuncts.mapM (Goal.walk w b)
  | [] => fun _ hg => absurd hg List.not_mem_nil
  | g :: gs => by
      intro h hh
      rcases List.mem_cons.mp hh with he | hh
      · rw [he]
        exact Goal.walk_spliced b g
      · exact walkGoals_spliced b gs h hh

theorem walkAssumptions_facts (b : Binders) : (as : List Assumption) → ∀ a ∈ as,
    Assumption.facts <$> a.walk w b =
      (List.flatMap Assumption.facts) <$> a.spliced.facts.mapM (Assumption.walk w b)
  | [] => fun _ ha => absurd ha List.not_mem_nil
  | a :: as => by
      intro f hf
      rcases List.mem_cons.mp hf with he | hf
      · rw [he]
        exact Assumption.walk_spliced b a
      · exact walkAssumptions_facts b as f hf

end

end Walk

end Splice

end Sage
