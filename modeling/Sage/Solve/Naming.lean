import Sage.Infer.Represents
import Sage.Solve.Canonical
import Sage.Solve.Traversal

/-!
# Solve — the names of canonicalization

What the canonicalizer of `canonical.rs` computes.  Each variable and each free parameter of the
resolved types is an input with a name of its own, and each binder gets new names; the maps only
grow, so a goal is renamed by the maps the traversal ends with.

* `Canonicalizer.WF` — the maps and the list of inputs say the same.
* `Canonicalizer.foldTy_grows` — a type is resolved and renamed.
* `Canonicalizer.walkAssumptions_named`, `foldSolverGoal_named` — so are goals.
-/

namespace Sage

open Grow Filter

/-- Two array lengths alike but for related parameters. -/
def Const.Rel (P : GenericParam → GenericParam → Prop) : Const → Const → Prop
  | .param p, .param q => P p q
  | c, d => d = c

namespace Canonicalizer

variable (g : VersionedEGraph) (v : Version)

@[grind =] def rigidInput (p : GenericParam) (a : AlphaEquivParam) : InputInfo :=
  ⟨a, p.kind, .rigidPlaceholder, g.placeholderUniverse p, .any, .rigid p⟩

@[grind =] def existentialInput (x : InferVarIndex) (a : AlphaEquivParam) : InputInfo :=
  ⟨a, .type, .existentialInput, g.currentUniverse v x,
    (g.effectiveDomain v (.inferVar x)).getD .any, .existential x⟩

/-- The inputs are the entries of the maps, with names of their own. -/
structure WF (c : Canonicalizer) : Prop where
  rigid : ∀ p a, c.freeParams p = some a ↔ rigidInput g p a ∈ c.inputs
  existential : ∀ x a, c.inferVars x = some a ↔ existentialInput g v x a ∈ c.inputs
  input : ∀ i ∈ c.inputs, (∃ p, i = rigidInput g p i.param) ∨ ∃ x, i = existentialInput g v x i.param
  kind : ∀ i ∈ c.inputs, i.param.kind = i.kind
  index : ∀ i ∈ c.inputs, i.param.index < c.nextParam
  nodup : (c.inputs.map InputInfo.param).Nodup

/-- The maps only grow, and new inputs have new numbers. -/
structure Extends (c c' : Canonicalizer) : Prop where
  nextParam : c.nextParam ≤ c'.nextParam
  freeParams : ∀ p a, c.freeParams p = some a → c'.freeParams p = some a
  inferVars : ∀ x a, c.inferVars x = some a → c'.inferVars x = some a
  inputs : ∃ new, c'.inputs = c.inputs ++ new ∧ ∀ i ∈ new, c.nextParam ≤ i.param.index
  wf : c.WF g v → c'.WF g v

variable {g v}

theorem WF.new : Canonicalizer.new.WF g v where
  rigid _ _ := by simp [Canonicalizer.new]
  existential _ _ := by simp [Canonicalizer.new]
  input _ h := absurd h List.not_mem_nil
  kind _ h := absurd h List.not_mem_nil
  index _ h := absurd h List.not_mem_nil
  nodup := List.nodup_nil

instance : Std.Refl (Extends g v) where
  refl _ := ⟨le_rfl, fun _ _ => id, fun _ _ => id, ⟨[], (List.append_nil _).symm, by simp⟩, id⟩

instance : IsTrans Canonicalizer (Extends g v) where
  trans c c' c'' h h' := by
    refine ⟨h.nextParam.trans h'.nextParam, fun p a hp => h'.freeParams p a (h.freeParams p a hp),
      fun x a hx => h'.inferVars x a (h.inferVars x a hx), ?_, fun hc => h'.wf (h.wf hc)⟩
    obtain ⟨new, hnew, hi⟩ := h.inputs
    obtain ⟨new', hnew', hi'⟩ := h'.inputs
    refine ⟨new ++ new', by rw [hnew', hnew, List.append_assoc], fun i hm => ?_⟩
    rcases List.mem_append.mp hm with hm | hm
    · exact hi i hm
    · exact h.nextParam.trans (hi' i hm)

theorem stable_wf : Stable (Extends g v) (WF g v) := fun _ _ h => h.wf

/-! ### Leaves -/

section Leaves

variable {c c' : Canonicalizer} {b : Binders} {p : GenericParam} {x : InferVarIndex}

/-- The name of a parameter: the innermost binder's, or that of an input. -/
def lookup (c : Canonicalizer) (b : Binders) (p : GenericParam) : Option GenericParam :=
  (b p).or ((c.freeParams p).map .alphaEquiv)

/-- One more input, for an entry that is not in the maps yet. -/
theorem Extends.push {i : InputInfo} {free : GenericParam → Option AlphaEquivParam}
    {infer : InferVarIndex → Option AlphaEquivParam} (hi : i.param = ⟨i.kind, c.nextParam⟩)
    (hinput : (∃ p, i = rigidInput g p i.param) ∨ ∃ x, i = existentialInput g v x i.param)
    (hfree : ∀ p a, free p = some a ↔ c.freeParams p = some a ∨ i = rigidInput g p a)
    (hinfer : ∀ x a, infer x = some a ↔ c.inferVars x = some a ∨ i = existentialInput g v x a) :
    Extends g v c ⟨c.nextParam + 1, free, infer, c.inputs ++ [i]⟩ where
  nextParam := Nat.le_succ _
  freeParams p a hp := (hfree p a).mpr (.inl hp)
  inferVars x a hx := (hinfer x a).mpr (.inl hx)
  inputs := ⟨[i], rfl, by simp [hi]⟩
  wf hc :=
    { rigid := fun p a => by
        rw [hfree, hc.rigid, List.mem_append, List.mem_singleton, eq_comm (a := i)]
      existential := fun x a => by
        rw [hinfer, hc.existential, List.mem_append, List.mem_singleton, eq_comm (a := i)]
      input := fun j hj => by
        rcases List.mem_append.mp hj with hj | hj
        · exact hc.input j hj
        · rw [List.mem_singleton.mp hj]
          exact hinput
      kind := fun j hj => by
        rcases List.mem_append.mp hj with hj | hj
        · exact hc.kind j hj
        · rw [List.mem_singleton.mp hj, hi]
      index := fun j hj => by
        rcases List.mem_append.mp hj with hj | hj
        · exact Nat.lt_succ_of_lt (hc.index j hj)
        · rw [List.mem_singleton.mp hj, hi]
          exact Nat.lt_succ_self _
      nodup := by
        rw [List.map_append, List.nodup_append]
        refine ⟨hc.nodup, List.nodup_singleton _, fun a ha a' ha' => ?_⟩
        obtain ⟨j, hj, rfl⟩ := List.mem_map.mp ha
        rw [List.map_singleton, List.mem_singleton] at ha'
        rw [ha', hi]
        -- the new number is above all numbers in use
        intro he
        have hlt := hc.index j hj
        rw [he] at hlt
        exact Nat.lt_irrefl _ hlt }

section Run

variable (g v)

theorem get_bind_apply {α : Type} (f : Canonicalizer → Fold α) (c : Canonicalizer) :
    (do f (← get)) c = f c c := rfl

theorem foldGenericParam_bound {q : GenericParam} (hb : b p = some q) (c : Canonicalizer) :
    foldGenericParam g b p c = some (q, c) := by
  simp only [foldGenericParam, hb]
  rfl

theorem foldGenericParam_named {a : AlphaEquivParam} (hb : b p = none)
    (hp : c.freeParams p = some a) : foldGenericParam g b p c = some (.alphaEquiv a, c) := by
  simp only [foldGenericParam, hb]
  rw [get_bind_apply, hp]
  rfl

theorem foldGenericParam_new (hb : b p = none) (hp : c.freeParams p = none) :
    foldGenericParam g b p c = some (.alphaEquiv ⟨p.kind, c.nextParam⟩,
      ⟨c.nextParam + 1, Function.update c.freeParams p (some ⟨p.kind, c.nextParam⟩), c.inferVars,
        c.inputs ++ [rigidInput g p ⟨p.kind, c.nextParam⟩]⟩) := by
  simp only [foldGenericParam, hb]
  rw [get_bind_apply, hp]
  rfl

theorem foldInferVar_named {a : AlphaEquivParam} (hx : c.inferVars x = some a) :
    foldInferVar g v x c = some (a, c) := by
  simp only [foldInferVar]
  rw [get_bind_apply, hx]
  rfl

theorem foldInferVar_new (hx : c.inferVars x = none) :
    foldInferVar g v x c = some (⟨.type, c.nextParam⟩,
      ⟨c.nextParam + 1, c.freeParams, Function.update c.inferVars x (some ⟨.type, c.nextParam⟩),
        c.inputs ++ [existentialInput g v x ⟨.type, c.nextParam⟩]⟩) := by
  simp only [foldInferVar]
  rw [get_bind_apply, hx]
  rfl

end Run

theorem update_eq_some_iff {α β : Type} [DecidableEq α] {f : α → Option β} {k : α} {w : β}
    (hk : f k = none) (a : α) (b : β) :
    Function.update f k (some w) a = some b ↔ f a = some b ∨ k = a ∧ w = b := by
  by_cases h : a = k
  · subst h
    simp [hk]
  · simp [h, Ne.symm h]

theorem foldGenericParam_grows (b : Binders) (p : GenericParam) :
    Grows (Extends g v) (WF g v) (foldGenericParam g b p) fun c q => c.lookup b p = some q := by
  intro c _ q c' hrun
  cases hb : b p with
  | some mapped =>
      rw [foldGenericParam_bound g hb] at hrun
      obtain ⟨rfl, rfl⟩ := Prod.mk.inj (Option.some.inj hrun)
      exact ⟨refl_of _ _, fun u _ => by simp [lookup, hb]⟩
  | none =>
      have hlookup : ∀ {u : Canonicalizer} {a : AlphaEquivParam}, u.freeParams p = some a →
          u.lookup b p = some (.alphaEquiv a) := fun h => by simp [lookup, hb, h]
      cases hp : c.freeParams p with
      | some a =>
          rw [foldGenericParam_named g hb hp] at hrun
          obtain ⟨rfl, rfl⟩ := Prod.mk.inj (Option.some.inj hrun)
          exact ⟨refl_of _ _, fun u hu => hlookup (hu.freeParams p a hp)⟩
      | none =>
          rw [foldGenericParam_new g hb hp] at hrun
          obtain ⟨rfl, rfl⟩ := Prod.mk.inj (Option.some.inj hrun)
          refine ⟨.push rfl (.inl ⟨p, rfl⟩) (fun p' a => ?_) (fun x a => ?_), fun u hu => ?_⟩
          · rw [update_eq_some_iff hp]
            simp [rigidInput]
            grind
          · simp [rigidInput, existentialInput]
          · exact hlookup (hu.freeParams p _ (Function.update_self ..))

theorem foldInferVar_grows (x : InferVarIndex) :
    Grows (Extends g v) (WF g v) (foldInferVar g v x) fun c a => c.inferVars x = some a := by
  intro c _ a c' hrun
  cases hx : c.inferVars x with
  | some a' =>
      rw [foldInferVar_named g v hx] at hrun
      obtain ⟨rfl, rfl⟩ := Prod.mk.inj (Option.some.inj hrun)
      exact ⟨refl_of _ _, fun u hu => hu.inferVars x _ hx⟩
  | none =>
      rw [foldInferVar_new g v hx] at hrun
      obtain ⟨rfl, rfl⟩ := Prod.mk.inj (Option.some.inj hrun)
      refine ⟨.push rfl (.inr ⟨x, rfl⟩) (fun p a => ?_) (fun y a => ?_), fun u hu => ?_⟩
      · simp [rigidInput, existentialInput]
      · rw [update_eq_some_iff hx]
        simp [existentialInput]
        grind
      · exact hu.inferVars x _ (Function.update_self ..)

/-- The array length `d` is `k` under the names of the parameters. -/
theorem foldConst_grows (b : Binders) (k : Const) :
    Grows (Extends g v) (WF g v) (foldConst g b k)
      fun c d => k.Rel (fun p q => c.lookup b p = some q) d := by
  cases k with
  | param p => exact .bind stable_wf (foldGenericParam_grows b p) fun q => .pure fun s u h hu => h.2 u hu
  | literal n => exact .pure fun _ _ _ _ => rfl
  | other sym => exact .pure fun _ _ _ _ => rfl

end Leaves

/-! ### Types -/

section Types

variable {S : Store} {b : Binders} {c c' : Canonicalizer} {t u : Ty}

/-- `u` is the resolved type `t` under the names of its variables and parameters. -/
def Named (c : Canonicalizer) (b : Binders) : Ty → Ty → Prop :=
  Ty.Folded (fun x u => ∃ a, c.inferVars x = some a ∧ u = .param (.alphaEquiv a))
    (fun p u => ∃ q, c.lookup b p = some q ∧ u = .param q)
    (Const.Rel fun p q => c.lookup b p = some q)

theorem foldTy_inner (h : (g.find v t).Inner) (n : Nat) :
    foldTy g v (n + 1) b t = (g.find v t).mapChildrenM (foldTy g v n b) (foldConst g b) := by
  rw [foldTy]
  revert h
  cases g.find v t <;> first | exact fun h => h.elim | exact fun _ => rfl

theorem foldTy_param {p : GenericParam} (h : g.find v t = .param p) (n : Nat) :
    foldTy g v (n + 1) b t = (do return .param (← foldGenericParam g b p)) := by
  rw [foldTy, h]

theorem foldTy_inferVar {x : InferVarIndex} (h : g.find v t = .inferVar x) (n : Nat) :
    foldTy g v (n + 1) b t = (do return .param (.alphaEquiv (← foldInferVar g v x))) := by
  rw [foldTy, h]

theorem foldTy_grows (h : VersionedEGraph.Represents g v S) (n : Nat) : ∀ (b : Binders) (t : Ty),
    Grows (Extends g v) (WF g v) (foldTy g v n b t) fun c u => c.Named b (t.subst S.resolve) u := by
  induction n with
  | zero => exact fun b t c _ u c' hrun => nomatch hrun
  | succ n ih =>
      intro b t
      have hfind := h.subst_find t
      rcases (g.find v t).cases_leaf with ht | ⟨x, hx⟩ | ⟨p, hp⟩
      · rw [foldTy_inner ht, ← hfind]
        refine (Grows.mapChildrenM ht stable_wf (fun c _ => ih b c)
          fun k _ => foldConst_grows b k).mono (fun _ => id) fun c u hu => ?_
        rw [Named, Ty.folded_inner (ht.subst _)]
        refine ⟨hu.inner, ?_, ?_⟩
        · rw [Ty.decompose_subst ht.rigid]
          exact hu.skeleton
        · rw [Ty.decompose_subst ht.rigid, List.forall₂_map_left_iff]
          exact hu.children
      · rw [foldTy_inferVar hx, h.find_eq_inferVar.mp hx]
        exact .bind stable_wf (foldInferVar_grows x) fun a =>
          .pure fun _ c hc hle => .var ⟨a, hc.2 c hle, rfl⟩
      · rw [foldTy_param hp, ← hfind, hp]
        exact .bind stable_wf (foldGenericParam_grows b p) fun q =>
          .pure fun _ c hc hle => .param ⟨q, hc.2 c hle, rfl⟩

/-- Enough fuel for a type is the size of what it resolves to. -/
theorem foldTy_defined (h : VersionedEGraph.Represents g v S) (n : Nat) : ∀ (b : Binders) (t : Ty),
    (t.subst S.resolve).term.size ≤ n → Defined (foldTy g v n b t) := by
  have hparam : ∀ b p, Defined (foldGenericParam g b p) := fun b p c hnone => by
    cases hb : b p with
    | some q => exact absurd hnone (by simp [foldGenericParam_bound g hb])
    | none =>
        cases hp : c.freeParams p with
        | some a => exact absurd hnone (by simp [foldGenericParam_named g hb hp])
        | none => exact absurd hnone (by simp [foldGenericParam_new g hb hp])
  have hvar : ∀ x, Defined (foldInferVar g v x) := fun x c hnone => by
    cases hx : c.inferVars x with
    | some a => exact absurd hnone (by simp [foldInferVar_named g v hx])
    | none => exact absurd hnone (by simp [foldInferVar_new g v hx])
  induction n with
  | zero => exact fun b t ht => absurd (Terms.Term.size_pos _) (Nat.not_lt.mpr ht)
  | succ n ih =>
      intro b t hsize
      have hfind := h.subst_find t
      rcases (g.find v t).cases_leaf with ht | ⟨x, hx⟩ | ⟨p, hp⟩
      · rw [foldTy_inner ht]
        refine Defined.mapChildrenM (fun k => ?_) _ fun c hc => ih b c ?_
        · cases k with
          | param p => exact (hparam b p).bind fun q => .pure _
          | literal _ | other _ => exact .pure _
        · have hlt : (c.subst S.resolve).term.size < (t.subst S.resolve).term.size := by
            rw [← hfind]
            refine Ty.size_child_lt ?_
            rw [Ty.decompose_subst ht.rigid]
            exact List.mem_map_of_mem hc
          exact Nat.le_of_lt_succ (Nat.lt_of_lt_of_le hlt hsize)
      · rw [foldTy_inferVar hx]
        exact (hvar x).bind fun a => .pure _
      · rw [foldTy_param hp]
        exact (hparam b p).bind fun q => .pure _

end Types

/-! ### Binders -/

/-- How the binders around a place are renamed, and the names they have been given. -/
structure Scope where
  binders : Binders
  names : List GenericParam

namespace Scope

def empty : Scope := ⟨fun _ => none, []⟩

def enter (b : Scope) (gs gs' : List GenericParam) : Scope :=
  ⟨b.binders.enter gs gs', gs' ++ b.names⟩

end Scope

theorem enter_eq_some {binders : Binders} {gs gs' : List GenericParam} {p q : GenericParam}
    (h : binders.enter gs gs' p = some q) : binders p = some q ∨ q ∈ gs' := by
  induction gs generalizing binders gs' with
  | nil => exact .inl h
  | cons x gs ih =>
      cases gs' with
      | nil => exact .inl h
      | cons y gs' =>
          rw [Binders.enter, List.zip_cons_cons, List.foldl_cons] at h
          rcases ih h with h | h
          · by_cases hp : p = x
            · subst hp
              rw [Function.update_self] at h
              exact .inr (Option.some.inj h ▸ List.mem_cons_self)
            · rw [Function.update_of_ne hp] at h
              exact .inl h
          · exact .inr (List.mem_cons_of_mem y h)

section Binders

variable {c c' : Canonicalizer} {b : Scope} {gs gs' : List GenericParam}

/-- A name in use that is not an input's. -/
def Private (c : Canonicalizer) (q : GenericParam) : Prop :=
  ∃ a, q = .alphaEquiv a ∧ a.index < c.nextParam ∧ a ∉ c.inputs.map InputInfo.param

theorem Private.extend {q : GenericParam} (h : c.Private q) (hc : Extends g v c c') :
    c'.Private q := by
  obtain ⟨a, rfl, hlt, hnot⟩ := h
  obtain ⟨new, hnew, hi⟩ := hc.inputs
  refine ⟨a, rfl, Nat.lt_of_lt_of_le hlt hc.nextParam, fun hm => ?_⟩
  rw [hnew, List.map_append, List.mem_append] at hm
  refine hm.elim hnot fun hm => ?_
  obtain ⟨i, him, rfl⟩ := List.mem_map.mp hm
  exact Nat.lt_irrefl _ (Nat.lt_of_lt_of_le hlt (hi i him))

variable (g v) in
/-- A scope whose names are the binders' only. -/
structure Fits (b : Scope) (c : Canonicalizer) : Prop where
  wf : c.WF g v
  range : ∀ p q, b.binders p = some q → q ∈ b.names
  private_ : ∀ q ∈ b.names, c.Private q

theorem stable_fits (b : Scope) : Stable (Extends g v) (Fits g v b) := fun _ _ hc h =>
  ⟨hc.wf h.wf, h.range, fun q hq => (h.private_ q hq).extend hc⟩

/-- The parameters of a binder and the new names it is given. -/
structure Binds (c : Canonicalizer) (b : Scope) (gs gs' : List GenericParam) : Prop where
  kinds : List.Forall₂ (fun p q => q.kind = p.kind) gs gs'
  nodup : gs'.Nodup
  fresh : ∀ q ∈ gs', q ∉ b.names
  private_ : ∀ q ∈ gs', c.Private q

def targets : Nat → List GenericParam → List GenericParam
  | _, [] => []
  | n, p :: ps => .alphaEquiv ⟨p.kind, n⟩ :: targets (n + 1) ps

theorem rename_mapM (fuel : Nat) (gs : List GenericParam) (c : Canonicalizer) :
    gs.mapM (walker g v fuel).rename c =
      some (targets c.nextParam gs, { c with nextParam := c.nextParam + gs.length }) := by
  induction gs generalizing c with
  | nil =>
      rw [List.mapM_nil]
      rfl
  | cons p gs ih =>
      rw [List.mapM_cons]
      refine bind_eq_some.mpr ⟨_, { c with nextParam := c.nextParam + 1 }, rfl, ?_⟩
      refine bind_eq_some.mpr ⟨_, _, ih _, ?_⟩
      refine pure_eq_some.mpr ⟨rfl, ?_⟩
      simp only [List.length_cons, Canonicalizer.mk.injEq, and_self, and_true]
      omega

theorem mem_targets {n : Nat} {gs : List GenericParam} {q : GenericParam} (h : q ∈ targets n gs) :
    ∃ a, q = .alphaEquiv a ∧ n ≤ a.index ∧ a.index < n + gs.length := by
  induction gs generalizing n with
  | nil => exact absurd h List.not_mem_nil
  | cons p gs ih =>
      rcases List.mem_cons.mp h with rfl | h
      · exact ⟨_, rfl, Nat.le_refl n, Nat.lt_add_of_pos_right (Nat.succ_pos _)⟩
      · obtain ⟨a, rfl, hle, hlt⟩ := ih h
        refine ⟨a, rfl, Nat.le_of_succ_le hle, ?_⟩
        rwa [List.length_cons, ← Nat.add_assoc, Nat.add_right_comm]

theorem nodup_targets (n : Nat) (gs : List GenericParam) : (targets n gs).Nodup := by
  induction gs generalizing n with
  | nil => exact List.nodup_nil
  | cons p gs ih =>
      refine List.nodup_cons.mpr ⟨fun h => ?_, ih _⟩
      obtain ⟨a, ha, hle, -⟩ := mem_targets h
      cases ha
      exact Nat.lt_irrefl n hle

theorem kinds_targets (n : Nat) (gs : List GenericParam) :
    List.Forall₂ (fun p q => q.kind = p.kind) gs (targets n gs) := by
  induction gs generalizing n with
  | nil => exact .nil
  | cons p gs ih => exact .cons rfl (ih _)

theorem Extends.advance (c : Canonicalizer) (n : Nat) :
    Extends g v c { c with nextParam := c.nextParam + n } where
  nextParam := Nat.le_add_right ..
  freeParams _ _ := id
  inferVars _ _ := id
  inputs := ⟨[], (List.append_nil _).symm, by simp⟩
  wf h := ⟨h.rigid, h.existential, h.input, h.kind,
    fun i hi => Nat.lt_of_lt_of_le (h.index i hi) (Nat.le_add_right ..), h.nodup⟩

/-- A binder is given new names, in the scope it opens. -/
theorem rename_grows (fuel : Nat) (b : Scope) (gs : List GenericParam) :
    Grows (Extends g v) (Fits g v b) (gs.mapM (walker g v fuel).rename)
      fun c gs' => c.Binds b gs gs' ∧ Fits g v (b.enter gs gs') c := by
  intro c hfits gs' c' hrun
  rw [rename_mapM] at hrun
  obtain ⟨rfl, rfl⟩ := Prod.mk.inj (Option.some.inj hrun)
  refine ⟨.advance c gs.length, fun u hu => ?_⟩
  have hnew : ∀ q ∈ targets c.nextParam gs, u.Private q := fun q hq => by
    obtain ⟨a, rfl, hle, hlt⟩ := mem_targets hq
    refine Private.extend ⟨a, rfl, hlt, fun hm => ?_⟩ hu
    obtain ⟨i, hi, rfl⟩ := List.mem_map.mp hm
    exact Nat.lt_irrefl _ (Nat.lt_of_lt_of_le (hfits.wf.index i hi) hle)
  have hu' : Extends g v c u := trans_of _ (.advance c gs.length) hu
  refine ⟨⟨kinds_targets _ gs, nodup_targets _ gs, fun q hq hb => ?_, hnew⟩,
    hu'.wf hfits.wf, fun p q hq => ?_, fun q hq => ?_⟩
  · obtain ⟨a, rfl, hle, -⟩ := mem_targets hq
    obtain ⟨a', ha', hlt, -⟩ := hfits.private_ _ hb
    cases ha'
    exact Nat.lt_irrefl _ (Nat.lt_of_lt_of_le hlt hle)
  · rcases enter_eq_some hq with hq | hq
    · exact List.mem_append_right _ (hfits.range p q hq)
    · exact List.mem_append_left _ hq
  · rcases List.mem_append.mp hq with hq | hq
    · exact hnew q hq
    · exact (hfits.private_ q hq).extend hu'

end Binders

/-! ### Goals -/

theorem Scope.binders_enter (b : Scope) (gs gs' : List GenericParam) :
    (b.enter gs gs').binders = b.binders.enter gs gs' := rfl

theorem Fits.empty {c : Canonicalizer} (h : c.WF g v) : Fits g v .empty c :=
  ⟨h, nofun, fun _ hq => absurd hq List.not_mem_nil⟩

section Goals

/-- The types of a resolved goal and of its canonical form. -/
def NamedIn (c : Canonicalizer) (S : Store) (b : Scope) (t u : Ty) : Prop :=
  c.Named b.binders (t.subst S.resolve) u

variable {S : Store} (h : VersionedEGraph.Represents g v S)
include h

theorem walkAssumptions_named (fuel : Nat) {as : List Assumption} (has : FlatAssumptions as) :
    Grows (Extends g v) (WF g v) (walkAssumptions (walker g v fuel) (fun _ => none) as)
      fun c as' => RelAssumptions Scope.enter (c.NamedIn S) c.Binds .empty as as' :=
  (walkAssumptions_grows Scope.binders_enter stable_fits
    (fun b t => (foldTy_grows h fuel b.binders t).weaken fun _ hf => hf.wf)
    (rename_grows fuel) .empty as has).weaken fun _ => .empty

theorem foldSolverGoal_named (fuel : Nat) (goal : SolverGoal) :
    Grows (Extends g v) (WF g v) (foldSolverGoal g v fuel goal)
      fun c goal' => goal.spliced.Rel Scope.enter (c.NamedIn S) c.Binds .empty goal' := by
  have hty := fun (b : Scope) t => (foldTy_grows h fuel b.binders t).weaken
    fun c (hf : Fits g v b c) => hf.wf
  cases goal with
  | prove goal =>
      rw [foldSolverGoal, (goal.walk_spliced (walker g v fuel) _).1]
      refine .bind stable_wf ((goal.spliced.walk_grows Scope.binders_enter stable_fits hty
        (rename_grows fuel) .empty goal.flat_spliced).weaken fun _ => .empty) fun goal' => ?_
      exact .pure fun _ u hu hle => hu.2 u hle
  | normalize a =>
      refine .bind stable_wf ((a.mapM_grows (stable_fits .empty) (hty .empty)).weaken
        fun _ => .empty) fun a' => ?_
      exact .pure fun _ u hu hle => hu.2 u hle

end Goals

/-! ### Queries -/

section Queries

/-- The oldest universe of the inputs and the current one. -/
@[grind =] def base (c : Canonicalizer) (currentUniverse : Universe) : Universe :=
  (c.inputs.map InputInfo.absoluteUniverse).foldl min currentUniverse

/-- The query of a canonical goal, and the mapping of its inputs, for the inputs of `c`. -/
def queryOf (c : Canonicalizer) (currentUniverse : Universe) (assumptionsComplete : Bool)
    (assumptions : List Assumption) (goal : SolverGoal) : GoalQueryData × CanonicalMapping :=
  ({ canonicalUniverse := currentUniverse - c.base currentUniverse
     canonicalVars := c.inputs.map fun i =>
      ⟨i.param, i.kind, i.role, i.absoluteUniverse - c.base currentUniverse, i.domain⟩
     nextResponseParam := c.nextParam
     assumptionsComplete
     assumptions
     goal },
    ⟨c.base currentUniverse, c.inputs.map InputInfo.caller⟩)

theorem foldSolverGoal_spliced (fuel : Nat) (goal : SolverGoal) :
    foldSolverGoal g v fuel goal = foldSolverGoal g v fuel goal.spliced := by
  cases goal with
  | prove goal => rw [SolverGoal.spliced, foldSolverGoal, foldSolverGoal, (goal.walk_spliced _ _).1]
  | normalize a => rfl

/-- Canonicalization traverses the spliced environment, then the spliced goal. -/
theorem canonicalize_run {currentUniverse : Universe} {assumptionsComplete : Bool}
    {assumptions : List Assumption} {goal : SolverGoal} {fuel : Nat}
    {query : GoalQueryData × CanonicalMapping}
    (hrun : g.canonicalizeSolverGoal fuel v currentUniverse assumptionsComplete assumptions goal =
      some query) :
    ∃ as c₁ goal' c₂,
      walkAssumptions (walker g v fuel) (fun _ => none)
        (Assumption.flatten (splicedAssumptions assumptions)) new = some (as, c₁) ∧
      foldSolverGoal g v fuel goal.spliced c₁ = some (goal', c₂) ∧
      query = c₂.queryOf currentUniverse assumptionsComplete (Assumption.flatten as) goal' := by
  obtain ⟨⟨as, c₁⟩, has, hrun⟩ := Option.bind_eq_some_iff.mp hrun
  obtain ⟨⟨goal', c₂⟩, hgoal, hrun⟩ := Option.bind_eq_some_iff.mp hrun
  have has : walkAssumptions (walker g v fuel) (fun _ => none) assumptions new = some (as, c₁) := has
  have hsplice := congrFun (flatten_walkAssumptions (walker g v fuel) (fun _ => none)
    (walkAssumptions_facts _ _ assumptions)) Canonicalizer.new
  rw [map_eq_some.mpr ⟨as, has, rfl⟩] at hsplice
  obtain ⟨as', has', hflatten⟩ := map_eq_some.mp hsplice.symm
  rw [foldSolverGoal_spliced] at hgoal
  exact ⟨as', c₁, goal', c₂, has', hgoal, by rw [hflatten]; exact (Option.some.inj hrun).symm⟩

/-- A query, and the maps and the inputs its names come from. -/
structure Canonicalized (g : VersionedEGraph) (v : Version) (S : Store)
    (assumptions : List Assumption) (goal : SolverGoal) (c : Canonicalizer) (data : GoalQueryData) :
    Prop where
  wf : c.WF g v
  assumptions : RelAssumptions Scope.enter (c.NamedIn S) c.Binds .empty
    (Assumption.flatten (splicedAssumptions assumptions)) data.assumptions
  goal : goal.spliced.Rel Scope.enter (c.NamedIn S) c.Binds .empty data.goal

variable {S : Store} (h : VersionedEGraph.Represents g v S) {currentUniverse : Universe}
  {assumptionsComplete : Bool} {assumptions : List Assumption} {goal : SolverGoal}
include h

variable (currentUniverse assumptionsComplete) in
theorem canonicalized {fuel : Nat} {as : List Assumption} {goal' : SolverGoal}
    {c₁ c₂ : Canonicalizer}
    (has : walkAssumptions (walker g v fuel) (fun _ => none)
      (Assumption.flatten (splicedAssumptions assumptions)) new = some (as, c₁))
    (hgoal : foldSolverGoal g v fuel goal.spliced c₁ = some (goal', c₂)) :
    Canonicalized g v S assumptions goal c₂
      (c₂.queryOf currentUniverse assumptionsComplete (Assumption.flatten as) goal').1 := by
  have hflat := flatAssumptions_iff.mpr (flat_flatten assumptions)
  obtain ⟨hle, hwalk⟩ := walkAssumptions_named h fuel hflat _ WF.new _ _ has
  rw [← foldSolverGoal_spliced] at hgoal
  obtain ⟨hle', hgoal'⟩ := foldSolverGoal_named h fuel goal _ (hle.wf WF.new) _ _ hgoal
  have hrel := hwalk _ hle'
  refine ⟨hle'.wf (hle.wf WF.new), ?_, hgoal' _ (refl_of _ _)⟩
  rw [queryOf, hrel.flatten_eq hflat]
  exact hrel

/-- With enough fuel every goal has a canonical query. -/
theorem canonicalizeSolverGoal_ends (u : Universe) (complete : Bool) (as : List Assumption)
    (goal : SolverGoal) :
    ∃ N, ∀ n ≥ N, ∃ r, g.canonicalizeSolverGoal n v u complete as goal = some r := by
  have hty : ∀ t, ∀ᶠ n in atTop, ∀ b, Defined ((walker g v n).ty b t) := fun t =>
    (eventually_ge_atTop _).mono fun n hn b => foldTy_defined h n b t hn
  have hrename : ∀ n p, Defined ((walker g v n).rename p) := fun n p c => nofun
  have hgoal : ∀ᶠ n in atTop, Defined (foldSolverGoal g v n goal) := by
    cases goal with
    | prove goal => exact (goal.walk_defined hty hrename).mono fun n hg => (hg _).bind fun _ => .pure _
    | normalize a =>
        exact (AliasTy.mapM_defined (f := fun n => (walker g v n).ty) hty a).mono fun n ha =>
          (ha _).bind fun _ => .pure _
  refine eventually_atTop.mp ?_
  filter_upwards [walkAssumptions_defined hty hrename as, hgoal] with n has hgoal
  obtain ⟨⟨as', c₁⟩, has⟩ := Option.ne_none_iff_exists'.mp (has (fun _ => none) new)
  obtain ⟨⟨goal', c₂⟩, hgoal⟩ := Option.ne_none_iff_exists'.mp (hgoal c₁)
  exact ⟨_, Option.bind_eq_some_iff.mpr ⟨_, has, Option.bind_eq_some_iff.mpr ⟨_, hgoal, rfl⟩⟩⟩

end Queries

end Canonicalizer

end Sage
