import Sage.Check.Reading
import Sage.Infer.Congruence
import Sage.Infer.TryUnify

/-!
# Check — finalized bodies

`finalize.rs`: a checked body is copied into a fresh stash, with its types resolved.

* `finalizeTypedBody` — the copy; `none` is a panic, or too little fuel.
* `finalReading` — the tree it is to have.
* `copyTy_spec`, `copyPattern_spec`, `copyExpr_spec` — each part is copied to what is read there.
-/

namespace Sage

open Terms

/-! ### The finalizer -/

structure BodyFinalizer where
  target : BodyStash
  copiedTypes : Ty → Option Ty
  activeTypes : List Ty
  copiedExprs : ExprPtr → Option ExprPtr
  activeExprs : List ExprPtr
  copiedPatterns : PatPtr → Option PatPtr

def BodyFinalizer.new : BodyFinalizer where
  target := []
  copiedTypes _ := none
  activeTypes := []
  copiedExprs _ := none
  activeExprs := []
  copiedPatterns _ := none

/-- What a finalized body consists of. -/
structure TyBody where
  stash : BodyStash
  root : ExprPtr
  locals : List LocalVar
  span : RelativeSpan

namespace BodyFinalizer

def allocExpr (node : TyExpr ExprPtr PatPtr) : StateT BodyFinalizer Option ExprPtr := fun st =>
  let (index, target) := st.target.alloc (.expr node)
  some (⟨index⟩, { st with target })

def allocPat (node : TyPat PatPtr) : StateT BodyFinalizer Option PatPtr := fun st =>
  let (index, target) := st.target.alloc (.pat node)
  some (⟨index⟩, { st with target })

section Copy

variable (source : BodyStash) (egraph : VersionedEGraph) (exprSlots : List ExprPtr)

/-- A type that is met again below itself is a panic, and so is an unresolved variable. -/
@[grind =] def copyTy : Nat → Ty → StateT BodyFinalizer Option Ty
  | 0, _ => failure
  | fuel + 1, ty => do
      let source := egraph.find .root ty
      match (← get).copiedTypes source with
      | some target => return target
      | none => do
          guard (source ∉ (← get).activeTypes)
          modify fun st => { st with activeTypes := source :: st.activeTypes }
          let target ← match source with
            | .inferVar _ => failure
            | source => source.mapChildrenM (copyTy fuel) Pure.pure
          modify fun st => { st with
            activeTypes := st.activeTypes.erase source
            copiedTypes := Function.update st.copiedTypes source (some target) }
          return target

@[grind =] def copyPattern : Nat → PatPtr → StateT BodyFinalizer Option PatPtr
  | 0, _ => failure
  | fuel + 1, p => do
      match (← get).copiedPatterns p with
      | some target => return target
      | none => do
          let node ← (source.pat p : Option _)
          let kind ← node.kind.mapM (copyPattern fuel)
          let ty ← copyTy egraph fuel node.ty
          let target ← allocPat ⟨kind, ty, node.span⟩
          modify fun st => { st with
            copiedPatterns := Function.update st.copiedPatterns p (some target) }
          return target

/-- A conversion from `!` to a type that turns out to be `!` is dropped. -/
def copyExprData (v : Visitor (StateT BodyFinalizer Option) ExprPtr ExprPtr PatPtr PatPtr)
    (data : TyExprData ExprPtr PatPtr) (finalizedTy : Ty) :
    StateT BodyFinalizer Option (TyExprData ExprPtr PatPtr) :=
  match data with
  | .neverToAny operand => do
      let operand ← v.expr operand
      if finalizedTy = .never then
        let node ← ((← get).target.expr operand : Option _)
        return node.data
      else return .neverToAny operand
  | .unresolved _ => failure
  | data => data.mapM v

@[grind =] def copyExpr : Nat → ExprPtr → StateT BodyFinalizer Option ExprPtr
  | 0, _ => failure
  | fuel + 1, p => do
      match (← get).copiedExprs p with
      | some target => return target
      | none => do
          let node ← (source.expr p : Option _)
          match node.data with
          | .unresolved slot => do
              guard (p ∉ (← get).activeExprs)
              modify fun st => { st with activeExprs := p :: st.activeExprs }
              let resolved ← (exprSlots[slot.index]? : Option _)
              let target ← copyExpr fuel resolved
              modify fun st => { st with
                activeExprs := st.activeExprs.erase p
                copiedExprs := Function.update st.copiedExprs p (some target) }
              return target
          | data => do
              let ty ← copyTy egraph fuel node.ty
              let data ← copyExprData
                ⟨copyExpr fuel, copyPattern source egraph fuel, copyTy egraph fuel⟩ data ty
              let target ← allocExpr ⟨data, ty, node.span⟩
              modify fun st => { st with
                copiedExprs := Function.update st.copiedExprs p (some target) }
              return target

end Copy

end BodyFinalizer

/-- Resolve every type and rebuild the body in a fresh stash; the locals are copied as they are. -/
def finalizeTypedBody (fuel : Nat) (source : BodyStash) (egraph : VersionedEGraph) (root : ExprPtr)
    (exprSlots : List ExprPtr) (locals : List LocalVar) (span : RelativeSpan) : Option TyBody := do
  let (root, finalizer) ← BodyFinalizer.copyExpr source egraph exprSlots fuel root .new
  return ⟨finalizer.target, root, locals, span⟩

/-! ### Resolved types -/

theorem length_of_mapM {α β : Type} {f : α → Option β} {xs : List α} {us : List β}
    (h : xs.mapM f = some us) : us.length = xs.length :=
  (Relator.forall₂_iff_mapM.mpr h).length_eq.symm

/-- One level of a type, by its children. -/
theorem Ty.mapChildrenM_eq {f : Ty → Option Ty} (t : Ty) :
    t.mapChildrenM f pure = ((decompose t).children.mapM f).bind (recompose (decompose t).skeleton) := by
  rcases t with _ | _ | _ | _ | _ | _ | ⟨sym, args⟩ | (⟨sym, args⟩ | ⟨a, self, tr, targs, args⟩ |
    ⟨sym, args⟩) | ⟨inner, m, lt⟩ | elems | inner | ⟨inner, c⟩ | ⟨params, ret⟩ | _ | _ | _ | _
  case alias.associated =>
    simp only [mapChildrenM, decompose, List.mapM_cons]
    cases f self with
    | none => rfl
    | some self' =>
      cases htargs : targs.mapM f with
      | none => simp [htargs]
      | some targs' =>
        cases hargs : args.mapM f with
        | none => simp [htargs, hargs]
        | some args' => simp [htargs, hargs, recompose, ← length_of_mapM htargs, ← length_of_mapM hargs]
  case fnPtr =>
    simp only [mapChildrenM, decompose]
    cases hparams : params.mapM f with
    | none => simp [hparams]
    | some params' =>
      cases hret : f ret with
      | none => simp [hparams, hret]
      | some ret' => simp [hparams, hret, recompose, ← length_of_mapM hparams]
  case ref | slice | array =>
    simp only [mapChildrenM, decompose, List.mapM_cons]
    cases f inner <;> simp [recompose]
  case adt | alias.named | alias.opaqueAlias | tuple => rfl
  all_goals simp [mapChildrenM, decompose, leaf, recompose]

theorem Ty.mapChildrenM_rel {M N : Type → Type} [Monad M] [Monad N] [LawfulMonad M] [LawfulMonad N]
    (L : Relator M N) {f : Ty → M Ty} {g : Ty → N Ty} {t : Ty}
    (h : ∀ c ∈ (decompose t).children, L.rel Eq (f c) (g c)) :
    L.rel Eq (t.mapChildrenM f pure) (t.mapChildrenM g pure) := by
  have hlist : ∀ {ts : List Ty}, (∀ c ∈ ts, c ∈ (decompose t).children) →
      L.rel Eq (ts.mapM f) (ts.mapM g) := fun hts =>
    L.mono (L.mapM fun c hc => h c (hts c hc)) fun _ _ => List.forall₂_eq_eq_eq ▸ id
  rcases t with _ | _ | _ | _ | _ | _ | ⟨sym, args⟩ | (⟨sym, args⟩ | ⟨a, self, tr, targs, args⟩ |
    ⟨sym, args⟩) | ⟨inner, m, lt⟩ | elems | inner | ⟨inner, c⟩ | ⟨params, ret⟩ | _ | _ | _ | _
  case adt | alias.named | alias.opaqueAlias | tuple =>
    refine L.bind (hlist fun _ => id) fun a b => L.pure ?_
    rintro rfl; rfl
  case alias.associated =>
    refine L.bind (h self List.mem_cons_self) fun a b => ?_
    refine L.bind (hlist (by simp +contextual [decompose])) fun a b => ?_
    refine L.bind (hlist (by simp +contextual [decompose])) fun a b => L.pure ?_
    rintro rfl rfl rfl; rfl
  case ref | slice =>
    refine L.bind (h inner List.mem_cons_self) fun a b => L.pure ?_
    rintro rfl; rfl
  case array =>
    refine L.bind (h inner List.mem_cons_self) fun a b => L.bind (R := Eq) (L.pure rfl) fun c d => L.pure ?_
    rintro rfl rfl; rfl
  case fnPtr =>
    refine L.bind (hlist (by simp +contextual [decompose])) fun a b => ?_
    refine L.bind (h ret (by simp [decompose])) fun a b => L.pure ?_
    rintro rfl rfl; rfl
  all_goals exact L.pure rfl

/-- The deep resolution of a type, when it leaves no variable. -/
def finalTy (egraph : VersionedEGraph) (fuel : Nat) (ty : Ty) : Option Ty :=
  (egraph.deepResolve .root fuel ty).filter fun ty => ty.vars = []

/-- The resolution of a representative. -/
def finalRoot (egraph : VersionedEGraph) (fuel : Nat) : Ty → Option Ty
  | .inferVar _ => none
  | root => root.mapChildrenM (finalTy egraph fuel) pure

theorem vars_eq_nil_iff {t : Ty} (h : t.Rigid) :
    t.vars = [] ↔ ∀ c ∈ (decompose t).children, c.vars = [] := by
  simp only [List.eq_nil_iff_forall_not_mem, Ty.mem_vars_iff h]
  grind

theorem mapM_filter {α : Type} {f : α → Option Ty} {p : Ty → Bool} {xs : List α} {us : List Ty} :
    xs.mapM (fun a => (f a).filter p) = some us ↔ xs.mapM f = some us ∧ ∀ u ∈ us, p u := by
  simp only [← Relator.forall₂_iff_mapM, Option.filter_eq_some_iff]
  constructor
  · intro h
    induction h with
    | nil => exact ⟨.nil, nofun⟩
    | cons hab _ ih => exact ⟨.cons hab.1 ih.1, List.forall_mem_cons.mpr ⟨hab.2, ih.2⟩⟩
  · rintro ⟨h, hp⟩
    induction h with
    | nil => exact .nil
    | cons hab _ ih =>
        obtain ⟨hb, hp⟩ := List.forall_mem_cons.mp hp
        exact .cons ⟨hab, hb⟩ (ih hp)

theorem deepResolve_of_rigid {g : VersionedEGraph} {v : Version} {n : Nat} {t : Ty}
    (h : (g.find v t).Rigid) : g.deepResolve v (n + 1) t =
      ((decompose (g.find v t)).children.mapM (g.deepResolve v n)).bind
        (recompose (decompose (g.find v t)).skeleton) := by
  simp only [VersionedEGraph.deepResolve]
  split
  · rename_i x hx
    rw [hx] at h
    exact h.elim
  · rfl

theorem finalTy_succ (egraph : VersionedEGraph) (n : Nat) (t : Ty) :
    finalTy egraph (n + 1) t = finalRoot egraph n (egraph.find .root t) := by
  rcases (egraph.find .root t).rigid_or_var with hr | ⟨x, hx⟩
  · rw [finalTy, deepResolve_of_rigid hr]
    revert hr
    generalize egraph.find .root t = root
    intro hr
    have hroot : finalRoot egraph n root = root.mapChildrenM (finalTy egraph n) pure := by
      cases root <;> first | rfl | exact hr.elim
    rw [hroot, Ty.mapChildrenM_eq]
    ext r
    have hfinal : finalTy egraph n = fun ty =>
      (egraph.deepResolve .root n ty).filter fun ty => ty.vars = [] := rfl
    simp only [Option.filter_eq_some_iff, Option.bind_eq_some_iff, hfinal, mapM_filter]
    -- what is put together has the results of the children for its children
    have hvars : ∀ {us}, (decompose root).children.mapM (egraph.deepResolve .root n) = some us →
        recompose (decompose root).skeleton us = some r → (r.vars = [] ↔ ∀ u ∈ us, u.vars = []) := by
      intro us hus hrec
      obtain ⟨r', hr', hdec⟩ := decompose_recompose
        ((length_of_mapM hus).trans (length_children root))
      cases hrec.symm.trans hr'
      have hrr : r.Rigid := VersionedEGraph.rigid_of_skeleton hr (by rw [hdec])
      rw [vars_eq_nil_iff hrr, hdec]
    constructor
    · rintro ⟨⟨us, hus, hrec⟩, hground⟩
      exact ⟨us, ⟨hus, fun u hu => by simpa using (hvars hus hrec).mp (by simpa using hground) u hu⟩, hrec⟩
    · rintro ⟨us, ⟨hus, hground⟩, hrec⟩
      exact ⟨⟨us, hus, hrec⟩, by simpa using (hvars hus hrec).mpr (by simpa using hground)⟩
  · simp [finalTy, VersionedEGraph.deepResolve, hx, finalRoot, Ty.vars, Ty.term, Term.vars]


variable {egraph : VersionedEGraph} {n m : Nat}

theorem finalRoot_of_rigid {root : Ty} (h : root.Rigid) :
    finalRoot egraph n root = root.mapChildrenM (finalTy egraph n) pure := by
  cases root <;> first | rfl | exact h.elim

theorem finalTy_mono (hnm : n ≤ m) {t u : Ty} (h : finalTy egraph n t = some u) :
    finalTy egraph m t = some u := by
  induction n generalizing m t u with
  | zero => cases h
  | succ n ih =>
      obtain ⟨m, rfl⟩ := Nat.exists_eq_add_one.mpr (Nat.lt_of_lt_of_le n.succ_pos hnm)
      rw [finalTy_succ] at h ⊢
      rcases (egraph.find .root t).rigid_or_var with hr | ⟨x, hx⟩
      · rw [finalRoot_of_rigid hr] at h ⊢
        obtain ⟨v, hv, rfl⟩ := Ty.mapChildrenM_rel .below (g := finalTy egraph n)
          (fun c _ u hu => ⟨u, ih (Nat.le_of_succ_le_succ hnm) hu, rfl⟩) u h
        exact hv
      · rw [hx] at h
        cases h

theorem finalRoot_mono (hnm : n ≤ m) {root u : Ty} (h : finalRoot egraph n root = some u) :
    finalRoot egraph m root = some u := by
  rcases root.rigid_or_var with hr | ⟨x, rfl⟩
  · rw [finalRoot_of_rigid hr] at h ⊢
    obtain ⟨v, hv, rfl⟩ := Ty.mapChildrenM_rel .below (g := finalTy egraph n)
      (fun c _ u hu => ⟨u, finalTy_mono hnm hu, rfl⟩) u h
    exact hv
  · cases h

/-! ### What the finalizer keeps -/

namespace BodyFinalizer

variable {source : BodyStash} {egraph : VersionedEGraph} {exprSlots : List ExprPtr} {fuel : Nat}
  {st : BodyFinalizer}

theorem copyTy_of_copied {ty t : Ty} (h : st.copiedTypes (egraph.find .root ty) = some t) :
    copyTy egraph (fuel + 1) ty st = some (t, st) := by
  simp only [copyTy, Grow.bind_eq_some]
  exact ⟨st, st, rfl, by rw [h]; rfl⟩

/-- A representative that is not there yet is rebuilt. -/
theorem copyTy_of_fresh {ty t : Ty} {root : Ty} (hroot : egraph.find .root ty = root)
    (hr : root.Rigid) (h : st.copiedTypes root = none) (hactive : root ∉ st.activeTypes)
    {st' : BodyFinalizer}
    (hrun : root.mapChildrenM (copyTy egraph fuel) pure
      { st with activeTypes := root :: st.activeTypes } = some (t, st')) :
    copyTy egraph (fuel + 1) ty st = some (t, { st' with
      activeTypes := st'.activeTypes.erase root
      copiedTypes := Function.update st'.copiedTypes root (some t) }) := by
  subst hroot
  simp only [copyTy, Grow.bind_eq_some]
  refine ⟨st, st, rfl, ?_⟩
  rw [h]
  simp only [Grow.bind_eq_some]
  refine ⟨st, st, rfl, (), st, by rw [guard, if_pos hactive]; rfl, (), _, rfl, ?_⟩
  revert hr hrun
  generalize egraph.find .root ty = root
  intro hr hrun
  cases root
  case inferVar => exact hr.elim
  all_goals exact Grow.bind_eq_some.mpr ⟨t, st', hrun, Grow.bind_eq_some.mpr ⟨(), _, rfl, rfl⟩⟩

/-- The least fuel with which something that stays found is found. -/
theorem exists_least {α : Type} {f : Nat → Option α} {n : Nat} {u : α}
    (hf : ∀ i j u, i ≤ j → f i = some u → f j = some u) (h : f n = some u) :
    ∃ k ≤ n, f k = some u ∧ ∀ i < k, f i = none := by
  induction n with
  | zero => exact ⟨0, Nat.le_refl 0, h, nofun⟩
  | succ n ih =>
      cases hn : f n with
      | none =>
          refine ⟨n + 1, Nat.le_refl _, h, fun i hi => ?_⟩
          cases hi' : f i with
          | none => rfl
          | some v =>
              rw [hf i n v (Nat.le_of_lt_succ hi) hi'] at hn
              cases hn
      | some v =>
          cases Option.some.inj ((hf n (n + 1) v (Nat.le_succ n) hn).symm.trans h)
          obtain ⟨k, hk, hk'⟩ := ih hn
          exact ⟨k, Nat.le_succ_of_le hk, hk'⟩

theorem update_eq_some {α β : Type} [DecidableEq α] {f : α → Option β} {a x : α} {b y : β}
    (h : Function.update f a (some b) x = some y) : (x = a ∧ y = b) ∨ f x = some y := by
  rw [Function.update_apply] at h
  split at h
  · exact .inl ⟨‹_›, (Option.some.inj h).symm⟩
  · exact .inr h

/-- The target is only added to. -/
def Extends (s t : BodyFinalizer) : Prop := s.target <+: t.target

instance : IsTrans BodyFinalizer Extends := ⟨fun _ _ _ => List.IsPrefix.trans⟩
instance : Std.Refl Extends := ⟨fun s => List.prefix_refl s.target⟩

end BodyFinalizer

/-- A conversion of `!` to itself is what it converts. -/
def dropNever (ty : Ty) : TyExprData ExprTree PatTree → TyExprData ExprTree PatTree
  | .neverToAny (.mk operand) => if ty = .never then operand.data else .neverToAny (.mk operand)
  | data => data

/-- Types stand for their resolution and slots for their contents; conversions of `!` to itself are
dropped. -/
def finalReading (egraph : VersionedEGraph) (exprSlots : List ExprPtr) : Reading where
  slot s := exprSlots[s.index]?
  ty := finalTy egraph
  expr node := { node with data := dropNever node.ty node.data }

namespace BodyFinalizer

variable {source : BodyStash} {egraph : VersionedEGraph} {exprSlots : List ExprPtr} {n m : Nat}

/-- What has been copied is right, and the given types and slots are being copied. -/
structure Sound (source : BodyStash) (egraph : VersionedEGraph) (exprSlots : List ExprPtr)
    (types : List Ty) (exprs : List ExprPtr) (st : BodyFinalizer) : Prop where
  tidy : st.target.Tidy
  copiedTypes : ∀ ⦃root t⦄, st.copiedTypes root = some t → ∃ n, finalRoot egraph n root = some t
  copiedPatterns : ∀ ⦃p q⦄, st.copiedPatterns p = some q → ∃ n t,
    source.readPat (finalReading egraph exprSlots) n p = some t ∧ st.target.patTree q = some t
  copiedExprs : ∀ ⦃p q⦄, st.copiedExprs p = some q → ∃ n t,
    source.readExpr (finalReading egraph exprSlots) n p = some t ∧ st.target.tree q = some t
  activeTypes : st.activeTypes = types
  activeExprs : st.activeExprs = exprs

theorem Sound.new : Sound source egraph exprSlots [] [] .new where
  tidy := .nil
  copiedTypes _ _ := nofun
  copiedPatterns _ _ := nofun
  copiedExprs _ _ := nofun
  activeTypes := rfl
  activeExprs := rfl

variable {types : List Ty} {exprs : List ExprPtr}

/-- A type is copied to its resolution, if the types that are being copied need more fuel. -/
theorem copyTy_spec (hnm : n ≤ m) (htypes : ∀ root ∈ types, ∀ i < n, finalRoot egraph i root = none)
    (t : Ty) : Relator.Carries Extends (Sound source egraph exprSlots types exprs) (fun _ => Eq)
      (copyTy egraph m t) (finalTy egraph n t) := by
  induction n using Nat.strong_induction_on generalizing m types t with
  | h n ih =>
      intro u hu st hst
      obtain _ | j := n
      · cases hu
      obtain ⟨m, rfl⟩ := Nat.exists_eq_add_one.mpr (Nat.lt_of_lt_of_le j.succ_pos hnm)
      rw [finalTy_succ] at hu
      cases hmemo : st.copiedTypes (egraph.find .root t) with
      | some u' =>
          obtain ⟨i, hi⟩ := hst.copiedTypes hmemo
          refine ⟨u', st, copyTy_of_copied hmemo, hst, refl_of Extends st, fun _ _ => ?_⟩
          have hmax := finalRoot_mono (Nat.le_max_left i j) hi
          rw [finalRoot_mono (Nat.le_max_right i j) hu] at hmax
          exact (Option.some.inj hmax).symm
      | none =>
          have hrigid : (egraph.find .root t).Rigid := by
            refine (Ty.rigid_or_var _).resolve_right fun ⟨x, hx⟩ => ?_
            rw [hx] at hu
            cases hu
          have hnew : egraph.find .root t ∉ st.activeTypes := by
            intro hmem
            rw [hst.activeTypes] at hmem
            rw [htypes _ hmem j (Nat.lt_succ_self j)] at hu
            cases hu
          -- the least fuel that serves: with less, the type does not resolve
          obtain ⟨k, hkj, hv, hleast⟩ := exists_least
            (f := fun i => finalRoot egraph i (egraph.find .root t)) (fun _ _ _ h => finalRoot_mono h) hu
          have hchildren : Relator.Carries Extends (Sound source egraph exprSlots
              (egraph.find .root t :: types) exprs) (fun _ => Eq)
              ((egraph.find .root t).mapChildrenM (copyTy egraph m) pure)
              ((egraph.find .root t).mapChildrenM (finalTy egraph k) pure) :=
            Relator.carries_iff.mpr fun final => Ty.mapChildrenM_rel _ fun c _ =>
              Relator.carries_iff.mp (ih k (Nat.lt_succ_of_le hkj)
                (Nat.le_trans hkj (Nat.le_of_succ_le_succ hnm))
                (List.forall_mem_cons.mpr ⟨hleast, fun a ha i hi =>
                  htypes a ha i (Nat.lt_of_lt_of_le hi (Nat.le_succ_of_le hkj))⟩) c) final
          rw [finalRoot_of_rigid hrigid] at hv
          obtain ⟨v, st', hrun, hst', hle, heq⟩ := hchildren u hv { st with
            activeTypes := egraph.find .root t :: st.activeTypes }
              { hst with activeTypes := by rw [hst.activeTypes] }
          cases heq st' (refl_of Extends st')
          refine ⟨u, _, copyTy_of_fresh rfl hrigid hmemo hnew hrun, ?_, hle, fun _ _ => rfl⟩
          exact {
            tidy := hst'.tidy
            copiedTypes := fun root u hroot => by
              rcases update_eq_some hroot with ⟨rfl, rfl⟩ | hroot
              · exact ⟨k, (finalRoot_of_rigid hrigid).trans hv⟩
              · exact hst'.copiedTypes hroot
            copiedPatterns := hst'.copiedPatterns
            copiedExprs := hst'.copiedExprs
            activeTypes := by rw [hst'.activeTypes, List.erase_cons_head]
            activeExprs := hst'.activeExprs }

/-! ### Patterns -/

variable {st s t : BodyFinalizer}

theorem copyPattern_of_copied {p q : PatPtr} (h : st.copiedPatterns p = some q) :
    copyPattern source egraph (m + 1) p st = some (q, st) := by
  simp only [copyPattern, Grow.bind_eq_some]
  exact ⟨st, st, rfl, by rw [h]; rfl⟩

/-- The state after a pattern has been stored. -/
def withPattern (st : BodyFinalizer) (p : PatPtr) (node : TyPat PatPtr) : BodyFinalizer :=
  { st with
    target := (st.target.alloc (.pat node)).2
    copiedPatterns := Function.update st.copiedPatterns p
      (some ⟨(st.target.alloc (.pat node)).1⟩) }

theorem copyPattern_of_fresh {p : PatPtr} (h : st.copiedPatterns p = none) {node : TyPat PatPtr}
    (hnode : source.pat p = some node) {kind : TyPatKind PatPtr}
    (hkind : node.kind.mapM (copyPattern source egraph m) st = some (kind, s)) {ty : Ty}
    (hty : copyTy egraph m node.ty s = some (ty, t)) :
    copyPattern source egraph (m + 1) p st =
      some (⟨(t.target.alloc (.pat ⟨kind, ty, node.span⟩)).1⟩,
        t.withPattern p ⟨kind, ty, node.span⟩) := by
  simp only [copyPattern, Grow.bind_eq_some]
  refine ⟨st, st, rfl, ?_⟩
  rw [h]
  simp only [Grow.bind_eq_some]
  exact ⟨node, st, by rw [hnode]; rfl, kind, s, hkind, ty, t, hty, _, _, rfl, (), _, rfl, rfl⟩

theorem extends_withPattern (st : BodyFinalizer) (p : PatPtr) (node : TyPat PatPtr) :
    st.Extends (st.withPattern p node) := (st.target.alloc_spec (.pat node)).1

/-- Storing a pattern that reads as it should keeps the state sound. -/
theorem Sound.withPattern (h : Sound source egraph exprSlots types exprs st) {p : PatPtr}
    (node : TyPat PatPtr) {kind : TyPatKind PatTree}
    (hkind : node.kind.mapM st.target.patTree = some kind)
    (hread : source.readPat (finalReading egraph exprSlots) n p = some (.mk ⟨kind, node.ty, node.span⟩)) :
    Sound source egraph exprSlots types exprs (st.withPattern p node) ∧
      (st.withPattern p node).target.patTree ⟨(st.target.alloc (.pat node)).1⟩ =
        some (.mk ⟨kind, node.ty, node.span⟩) := by
  obtain ⟨htidy, htree⟩ := h.tidy.allocPat hkind
  have hle := (st.target.alloc_spec (.pat node)).1
  refine ⟨{ h with
    tidy := htidy
    copiedPatterns := fun p' q hq => ?_
    copiedExprs := fun p' q hq => ?_ }, htree⟩
  · rcases update_eq_some hq with ⟨rfl, rfl⟩ | hq
    · exact ⟨n, _, hread, htree⟩
    · obtain ⟨i, t, hi, ht⟩ := h.copiedPatterns hq
      exact ⟨i, t, hi, BodyStash.patTree_extend hle ht⟩
  · obtain ⟨i, t, hi, ht⟩ := h.copiedExprs hq
    exact ⟨i, t, hi, BodyStash.tree_extend hle ht⟩

theorem stable_finalReading : (finalReading egraph exprSlots).Stable :=
  fun _ _ _ _ hnm h => finalTy_mono hnm h

theorem copyPattern_spec (hnm : n ≤ m) (p : PatPtr) :
    Relator.Carries Extends (Sound source egraph exprSlots [] exprs)
      (fun st q t => st.target.patTree q = some t) (copyPattern source egraph m p)
      (source.readPat (finalReading egraph exprSlots) n p) := by
  induction n generalizing m p with
  | zero => exact fun _ h => nomatch h
  | succ n ih =>
      intro tree htree st hst
      obtain ⟨m, rfl⟩ := Nat.exists_eq_add_one.mpr (Nat.lt_of_lt_of_le n.succ_pos hnm)
      have hnm := Nat.le_of_succ_le_succ hnm
      cases hmemo : st.copiedPatterns p with
      | some q =>
          obtain ⟨i, t, hi, ht⟩ := hst.copiedPatterns hmemo
          have hmax := BodyStash.readPat_mono stable_finalReading (List.prefix_refl source)
            (Nat.le_max_left i (n + 1)) hi
          rw [BodyStash.readPat_mono stable_finalReading (List.prefix_refl source)
            (Nat.le_max_right i (n + 1)) htree] at hmax
          cases hmax
          exact ⟨q, st, copyPattern_of_copied hmemo, hst, refl_of Extends st, fun _ hle =>
            BodyStash.patTree_extend hle ht⟩
      | none =>
          have hread := htree
          rw [BodyStash.readPat] at htree
          obtain ⟨node, hnode, htree⟩ := Option.bind_eq_some_iff.mp htree
          obtain ⟨kind, hkind, htree⟩ := Option.bind_eq_some_iff.mp htree
          obtain ⟨u, hu, ⟨⟩⟩ := Option.bind_eq_some_iff.mp htree
          have hkinds : Relator.Carries Extends (Sound source egraph exprSlots [] exprs)
              (fun st kind' kind => kind'.mapM st.target.patTree = some kind)
              (node.kind.mapM (copyPattern source egraph m))
              (node.kind.mapM (source.readPat (finalReading egraph exprSlots) n)) :=
            Relator.carries_iff.mpr fun final => TyPatKind.mapM_read _ fun p _ =>
              Relator.carries_iff.mp (ih hnm p) final
          obtain ⟨kind', s, hrun, hs, hle, hkind'⟩ := hkinds kind hkind st hst
          obtain ⟨u', t, hrun', ht, hle', hu'⟩ := copyTy_spec hnm (List.forall_mem_nil _) node.ty
            u hu s hs
          cases hu' t (refl_of Extends t)
          obtain ⟨hsound, htree⟩ := ht.withPattern ⟨kind', u, node.span⟩
            (hkind' t hle') hread
          have hext := extends_withPattern t p ⟨kind', u, node.span⟩
          exact ⟨_, _, copyPattern_of_fresh hmemo hnode hrun hrun', hsound,
            trans_of Extends hle (trans_of Extends hle' hext), fun _ hfinal =>
            BodyStash.patTree_extend hfinal htree⟩

/-! ### Expressions -/

theorem dropNever_of_mapM {w : Visitor Option ExprPtr ExprTree PatPtr PatTree}
    {data : TyExprData ExprPtr PatPtr} (h : ∀ e, data ≠ .neverToAny e)
    {d : TyExprData ExprTree PatTree} (hd : data.mapM w = some d) {ty : Ty} :
    dropNever ty d = d := by
  cases d with
  | neverToAny u =>
      exfalso
      cases data <;> simp_all [TyExprData.mapM, Option.bind_eq_some_iff]
  | _ => rfl

/-- The data of a node is copied, and a conversion that is not needed is dropped. -/
theorem copyExprData_spec {v : Visitor (StateT BodyFinalizer Option) ExprPtr ExprPtr PatPtr PatPtr}
    {w : Visitor Option ExprPtr ExprTree PatPtr PatTree} {data : TyExprData ExprPtr PatPtr}
    (hslot : ∀ slot, data ≠ .unresolved slot) (ty : Ty)
    (h : ∀ final : BodyFinalizer, ∀ part ∈ data.parts, part.Visited
      (.carries Extends (Sound source egraph exprSlots types exprs) final) v w final.target.reader) :
    Relator.Carries Extends (Sound source egraph exprSlots types exprs)
      (fun st data' d => data'.mapM st.target.reader = some (dropNever ty d))
      (copyExprData v data ty) (data.mapM w) := by
  have hdata := Relator.carries_iff.mpr fun final => TyExprData.mapM_read _ (h final)
  cases data with
  | unresolved slot => exact absurd rfl (hslot slot)
  | neverToAny operand =>
      intro d hd st hst
      obtain ⟨⟨u⟩, hu, ⟨⟩⟩ := Option.bind_eq_some_iff.mp hd
      have hoperand := Relator.carries_iff.mpr fun final =>
        h final (.expr operand) List.mem_cons_self
      obtain ⟨q, s, hrun, hs, hle, hq⟩ := hoperand _ hu st hst
      by_cases hty : ty = .never
      · obtain ⟨node, d, hnode, hd', ⟨⟩⟩ := hs.tidy.tree_eq_some (hq s (refl_of Extends s))
        refine ⟨node.data, s, ?_, hs, hle, fun final hfinal => ?_⟩
        · simp only [copyExprData, Grow.bind_eq_some, if_pos hty]
          exact ⟨q, s, hrun, s, s, rfl, node, s, by rw [hnode]; rfl, rfl⟩
        · refine (BodyStash.mapM_reader_extend hfinal hd').trans (congrArg some ?_)
          exact (if_pos hty).symm
      · refine ⟨.neverToAny q, s, ?_, hs, hle, fun final hfinal => ?_⟩
        · simp only [copyExprData, Grow.bind_eq_some, if_neg hty]
          exact ⟨q, s, hrun, rfl⟩
        · refine Option.bind_eq_some_iff.mpr ⟨_, hq final hfinal, congrArg some ?_⟩
          exact (if_neg hty).symm
  | _ =>
      intro d hd st hst
      obtain ⟨data', s, hrun, hs, hle, hdata'⟩ := hdata d hd st hst
      refine ⟨data', s, hrun, hs, hle, fun final hfinal => ?_⟩
      exact (hdata' final hfinal).trans (congrArg some (dropNever_of_mapM (by simp) hd).symm)

theorem copyExpr_of_copied {p q : ExprPtr} (h : st.copiedExprs p = some q) :
    copyExpr source egraph exprSlots (m + 1) p st = some (q, st) := by
  simp only [copyExpr, Grow.bind_eq_some]
  exact ⟨st, st, rfl, by rw [h]; rfl⟩

/-- The state after an expression has been stored. -/
def withExpr (st : BodyFinalizer) (p : ExprPtr) (node : TyExpr ExprPtr PatPtr) : BodyFinalizer :=
  { st with
    target := (st.target.alloc (.expr node)).2
    copiedExprs := Function.update st.copiedExprs p (some ⟨(st.target.alloc (.expr node)).1⟩) }

/-- The state after a slot has been replaced. -/
def withSlot (st : BodyFinalizer) (p q : ExprPtr) : BodyFinalizer :=
  { st with
    activeExprs := st.activeExprs.erase p
    copiedExprs := Function.update st.copiedExprs p (some q) }

theorem copyExpr_of_slot {p : ExprPtr} (h : st.copiedExprs p = none)
    {node : TyExpr ExprPtr PatPtr} (hnode : source.expr p = some node) {slot : ExprSlot}
    (hslot : node.data = .unresolved slot) (hactive : p ∉ st.activeExprs) {contents q : ExprPtr}
    (hcontents : exprSlots[slot.index]? = some contents)
    (hrun : copyExpr source egraph exprSlots m contents
      { st with activeExprs := p :: st.activeExprs } = some (q, s)) :
    copyExpr source egraph exprSlots (m + 1) p st = some (q, s.withSlot p q) := by
  simp only [copyExpr, Grow.bind_eq_some]
  refine ⟨st, st, rfl, ?_⟩
  rw [h]
  simp only [Grow.bind_eq_some]
  refine ⟨node, st, by rw [hnode]; rfl, ?_⟩
  rw [hslot]
  simp only [Grow.bind_eq_some]
  exact ⟨st, st, rfl, (), st, by rw [guard, if_pos hactive]; rfl, (), _, rfl, contents, _,
    by rw [hcontents]; rfl, q, s, hrun, (), _, rfl, rfl⟩

theorem copyExpr_of_fresh {p : ExprPtr} (h : st.copiedExprs p = none)
    {node : TyExpr ExprPtr PatPtr} (hnode : source.expr p = some node)
    (hslot : ∀ slot, node.data ≠ .unresolved slot) {ty : Ty}
    (hty : copyTy egraph m node.ty st = some (ty, s)) {data : TyExprData ExprPtr PatPtr}
    (hdata : copyExprData ⟨copyExpr source egraph exprSlots m, copyPattern source egraph m,
      copyTy egraph m⟩ node.data ty s = some (data, t)) :
    copyExpr source egraph exprSlots (m + 1) p st =
      some (⟨(t.target.alloc (.expr ⟨data, ty, node.span⟩)).1⟩,
        t.withExpr p ⟨data, ty, node.span⟩) := by
  simp only [copyExpr, Grow.bind_eq_some]
  refine ⟨st, st, rfl, ?_⟩
  rw [h]
  simp only [Grow.bind_eq_some]
  refine ⟨node, st, by rw [hnode]; rfl, ?_⟩
  obtain ⟨data₀, ty₀, span⟩ := node
  cases data₀
  case unresolved slot => exact absurd rfl (hslot slot)
  all_goals
    simp only [Grow.bind_eq_some]
    exact ⟨ty, s, hty, data, t, hdata, _, _, rfl, (), _, rfl, rfl⟩

theorem extends_withExpr (st : BodyFinalizer) (p : ExprPtr) (node : TyExpr ExprPtr PatPtr) :
    st.Extends (st.withExpr p node) := (st.target.alloc_spec (.expr node)).1

/-- Storing an expression that reads as it should keeps the state sound. -/
theorem Sound.withExpr (h : Sound source egraph exprSlots types exprs st) {p : ExprPtr}
    (node : TyExpr ExprPtr PatPtr) {data : TyExprData ExprTree PatTree}
    (hdata : node.data.mapM st.target.reader = some data)
    (hread : source.readExpr (finalReading egraph exprSlots) n p =
      some (.mk ⟨data, node.ty, node.span⟩)) :
    Sound source egraph exprSlots types exprs (st.withExpr p node) ∧
      (st.withExpr p node).target.tree ⟨(st.target.alloc (.expr node)).1⟩ =
        some (.mk ⟨data, node.ty, node.span⟩) := by
  obtain ⟨htidy, htree⟩ := h.tidy.allocExpr hdata
  have hle := (st.target.alloc_spec (.expr node)).1
  refine ⟨{ h with
    tidy := htidy
    copiedPatterns := fun p' q hq => ?_
    copiedExprs := fun p' q hq => ?_ }, htree⟩
  · obtain ⟨i, t, hi, ht⟩ := h.copiedPatterns hq
    exact ⟨i, t, hi, BodyStash.patTree_extend hle ht⟩
  · rcases update_eq_some hq with ⟨rfl, rfl⟩ | hq
    · exact ⟨n, _, hread, htree⟩
    · obtain ⟨i, t, hi, ht⟩ := h.copiedExprs hq
      exact ⟨i, t, hi, BodyStash.tree_extend hle ht⟩

theorem Sound.withSlot {p q : ExprPtr} (h : Sound source egraph exprSlots types (p :: exprs) st)
    {t : ExprTree} (hq : st.target.tree q = some t)
    (hread : source.readExpr (finalReading egraph exprSlots) n p = some t) :
    Sound source egraph exprSlots types exprs (st.withSlot p q) where
  tidy := h.tidy
  copiedTypes := h.copiedTypes
  copiedPatterns := h.copiedPatterns
  copiedExprs p' q' hq' := by
    rcases update_eq_some hq' with ⟨rfl, rfl⟩ | hq'
    · exact ⟨n, t, hread, hq⟩
    · exact h.copiedExprs hq'
  activeTypes := h.activeTypes
  activeExprs := (congrArg (List.erase · p) h.activeExprs).trans (List.erase_cons_head ..)

/-- Every slot that is named exists. -/
def SlotsExist (source : BodyStash) (exprSlots : List ExprPtr) : Prop :=
  ∀ p node slot, source.expr p = some node → node.data = .unresolved slot →
    slot.index < exprSlots.length

theorem readExpr_mono_fuel {i j : Nat} {p : ExprPtr} {t : ExprTree} (hij : i ≤ j)
    (h : source.readExpr (finalReading egraph exprSlots) i p = some t) :
    source.readExpr (finalReading egraph exprSlots) j p = some t :=
  BodyStash.readExpr_mono stable_finalReading (List.prefix_refl source) hij h

/-- An expression is copied to what it is to be, if the slots that are being replaced need more
fuel. -/
theorem copyExpr_spec (hslots : SlotsExist source exprSlots) (hnm : n ≤ m)
    (hexprs : ∀ a ∈ exprs, ∀ i ≤ n, source.readExpr (finalReading egraph exprSlots) i a = none)
    (p : ExprPtr) : Relator.Carries Extends (Sound source egraph exprSlots [] exprs)
      (fun st q t => st.target.tree q = some t) (copyExpr source egraph exprSlots m p)
      (source.readExpr (finalReading egraph exprSlots) n p) := by
  induction n using Nat.strong_induction_on generalizing m exprs p with
  | h n ih =>
      intro tree htree st hst
      cases hmemo : st.copiedExprs p with
      | some q =>
          obtain ⟨i, t, hi, ht⟩ := hst.copiedExprs hmemo
          have hmax := readExpr_mono_fuel (Nat.le_max_left i n) hi
          rw [readExpr_mono_fuel (Nat.le_max_right i n) htree] at hmax
          cases hmax
          obtain _ | n := n
          · cases htree
          obtain ⟨m, rfl⟩ := Nat.exists_eq_add_one.mpr (Nat.lt_of_lt_of_le n.succ_pos hnm)
          exact ⟨q, st, copyExpr_of_copied hmemo, hst, refl_of Extends st, fun _ hle =>
            BodyStash.tree_extend hle ht⟩
      | none =>
          have hactive : p ∉ st.activeExprs := by
            intro hmem
            rw [hst.activeExprs] at hmem
            rw [hexprs p hmem n (Nat.le_refl n)] at htree
            cases htree
          -- the least fuel that serves: with less, the expression cannot be read
          obtain ⟨k, hkn, hread, hleast⟩ := exists_least
            (f := fun i => source.readExpr (finalReading egraph exprSlots) i p)
            (fun _ _ _ h => readExpr_mono_fuel h) htree
          obtain _ | j := k
          · cases hread
          obtain ⟨m, rfl⟩ := Nat.exists_eq_add_one.mpr
            (Nat.lt_of_lt_of_le j.succ_pos (Nat.le_trans hkn hnm))
          have hjm : j ≤ m := Nat.le_of_succ_le_succ (Nat.le_trans hkn hnm)
          have hread' := hread
          rw [BodyStash.readExpr] at hread
          obtain ⟨node, hnode, hread⟩ := Option.bind_eq_some_iff.mp hread
          by_cases hslot : ∃ slot, node.data = .unresolved slot
          · obtain ⟨slot, hslot⟩ := hslot
            have hindex := hslots p node slot hnode hslot
            have hfollow : (finalReading egraph exprSlots).follow node.data =
                some exprSlots[slot.index] := by
              rw [hslot]
              exact List.getElem?_eq_getElem hindex
            rw [hfollow] at hread
            obtain ⟨q, s, hrun, hs, hle, hq⟩ := ih j hkn hjm (List.forall_mem_cons.mpr
              ⟨fun i hi => hleast i (Nat.lt_succ_of_le hi), fun a ha i hi => hexprs a ha i
                (Nat.le_trans hi (Nat.le_of_succ_le hkn))⟩) exprSlots[slot.index] tree hread
              { st with activeExprs := p :: st.activeExprs }
              { hst with activeExprs := congrArg (p :: ·) hst.activeExprs }
            exact ⟨q, _, copyExpr_of_slot hmemo hnode hslot hactive
              (List.getElem?_eq_getElem hindex) hrun,
              hs.withSlot (hq s (refl_of Extends s)) hread', hle, hq⟩
          · have hslot : ∀ slot, node.data ≠ .unresolved slot := fun slot h => hslot ⟨slot, h⟩
            have hfollow : (finalReading egraph exprSlots).follow node.data = none := by
              cases hdata : node.data with
              | unresolved slot => exact absurd hdata (hslot slot)
              | _ => rfl
            rw [hfollow] at hread
            obtain ⟨u, hu, hread⟩ := Option.bind_eq_some_iff.mp hread
            obtain ⟨d, hd, ⟨⟩⟩ := Option.bind_eq_some_iff.mp hread
            obtain ⟨u', s, hrun, hs, hle, hu'⟩ := copyTy_spec hjm (List.forall_mem_nil _) node.ty
              u hu st hst
            cases hu' s (refl_of Extends s)
            have hparts : ∀ final : BodyFinalizer, ∀ part ∈ node.data.parts, part.Visited
                (.carries Extends (Sound source egraph exprSlots [] exprs) final)
                ⟨copyExpr source egraph exprSlots m, copyPattern source egraph m,
                  copyTy egraph m⟩
                ⟨source.readExpr (finalReading egraph exprSlots) j,
                  source.readPat (finalReading egraph exprSlots) j, finalTy egraph j⟩
                final.target.reader := by
              rintro final (e | p | t) -
              · exact Relator.carries_iff.mp (ih j hkn hjm (fun a ha i hi =>
                  hexprs a ha i (Nat.le_trans hi (Nat.le_of_succ_le hkn))) e) final
              · exact Relator.carries_iff.mp (copyPattern_spec hjm p) final
              · exact Relator.mono _ (Relator.carries_iff.mp
                  (copyTy_spec hjm (List.forall_mem_nil _) t) final) fun _ _ => congrArg some
            obtain ⟨data', t, hrun', ht, hle', hdata'⟩ := copyExprData_spec hslot u hparts d hd s hs
            obtain ⟨hsound, htree⟩ := ht.withExpr ⟨data', u, node.span⟩
              (hdata' t (refl_of Extends t)) hread'
            exact ⟨_, _, copyExpr_of_fresh hmemo hnode hslot hrun hrun', hsound,
              trans_of Extends hle (trans_of Extends hle' (extends_withExpr ..)), fun _ hfinal =>
              BodyStash.tree_extend hfinal htree⟩

end BodyFinalizer

end Sage
