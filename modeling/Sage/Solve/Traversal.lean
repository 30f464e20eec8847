import Sage.Solve.Walk
import Mathlib.Order.Filter.AtTopBot.Basic

/-!
# Solve — traversals of goals

One induction over goals for each kind of traversal rule of `Grow`: from what a traversal does
with types and binders to what it does with goals.

* `Goal.walk_grows` — over a growing state it computes a related goal.
* `Goal.walk_lockstep` — traversals of two related goals agree, where their parts do.
* `Goal.walk_defined` — with enough fuel it ends.
-/

namespace Sage

open Grow Filter

set_option linter.unusedSectionVars false

/-! ### Over a growing state -/

section Grows

variable {σ : Type} {le : σ → σ → Prop} [Std.Refl le] [IsTrans σ le]

section Parts

variable {P : σ → Prop} {f : Ty → StateT σ Option Ty} {T : σ → Ty → Ty → Prop} (hP : Stable le P)
  (hf : ∀ t, Grows le P (f t) fun s t' => T s t t')
include hP hf

theorem TraitRef.mapM_grows (r : TraitRef) : Grows le P (r.mapM f) fun s r' => r.Rel (T s) r' :=
  .bind hP (.mapM hP fun t _ => hf t) fun _ => .pure fun _ u h hu => ⟨rfl, h.2 u hu⟩

theorem WherePredicate.mapM_grows (p : WherePredicate) :
    Grows le P (p.mapM f) fun s p' => p.Rel (T s) p' := by
  refine .bind hP (hf p.selfTy) fun t => ?_
  refine .bind (hP.and (fun s t' => T s p.selfTy t') t)
    ((TraitRef.mapM_grows hP hf p.traitRef).weaken fun _ h => h.1) fun r => ?_
  exact .pure fun s u h hu => ⟨h.1.2 u hu, h.2 u hu⟩

theorem Atom.mapM_grows (a : Atom) : Grows le P (a.mapM f) fun s a' => a.Rel (T s) a' := by
  cases a with
  | traitImpl t r =>
      refine .bind hP (hf t) fun t' => ?_
      refine .bind (hP.and (fun s t' => T s t t') t')
        ((TraitRef.mapM_grows hP hf r).weaken fun _ h => h.1) fun r' => ?_
      exact .pure fun s u h hu => ⟨h.1.2 u hu, h.2 u hu⟩
  | equals l r =>
      refine .bind hP (hf l) fun l' => ?_
      refine .bind (hP.and (fun s t' => T s l t') l') ((hf r).weaken fun _ h => h.1) fun r' => ?_
      exact .pure fun s u h hu => ⟨h.1.2 u hu, h.2 u hu⟩

theorem AliasTy.mapM_grows (a : AliasTy) : Grows le P (a.mapM f) fun s a' => a.Rel (T s) a' := by
  have hlist := fun (Q : σ → Prop) (hQ : Stable le Q) (hQP : ∀ s, Q s → P s) (ts : List Ty) =>
    (Grows.mapM hQ fun t _ => (hf t).weaken hQP : Grows le Q (ts.mapM f) fun s us =>
      List.Forall₂ (T s) ts us)
  cases a with
  | named sym args =>
      exact .bind hP (hlist P hP (fun _ => id) args) fun _ => .pure fun _ u h hu => ⟨rfl, h.2 u hu⟩
  | associated a t tr targs args =>
      refine .bind hP (hf t) fun t' => ?_
      have hP₁ := hP.and (fun s t' => T s t t') t'
      refine .bind hP₁ (hlist _ hP₁ (fun _ h => h.1) targs) fun targs' => ?_
      have hP₂ := hP₁.and (fun s us => List.Forall₂ (T s) targs us) targs'
      refine .bind hP₂ (hlist _ hP₂ (fun _ h => h.1.1) args) fun args' => ?_
      exact .pure fun s u h hu => ⟨rfl, rfl, h.1.1.2 u hu, h.1.2 u hu, h.2 u hu⟩
  | opaqueAlias sym args =>
      exact .bind hP (hlist P hP (fun _ => id) args) fun _ => .pure fun _ u h hu => ⟨rfl, h.2 u hu⟩

end Parts

/-- Related goals are conjunctions in the same places. -/
theorem RelGoals.single {β : Type} {enter : β → List GenericParam → List GenericParam → β}
    {T : β → Ty → Ty → Prop} {E : β → List GenericParam → List GenericParam → Prop} {b : β}
    {gs gs' : List Goal} (h : RelGoals enter T E b gs gs') (hgs : ∀ g ∈ gs, g.Single) :
    ∀ g ∈ gs', g.Single := by
  induction gs generalizing gs' with
  | nil =>
      cases h
      exact fun _ hg => absurd hg List.not_mem_nil
  | cons g gs ih =>
      cases h with
      | @cons _ _ g' _ gs' h hs =>
          have hg := hgs g List.mem_cons_self
          have ih := ih hs fun g hg => hgs g (List.mem_cons_of_mem _ hg)
          refine List.forall_mem_cons.mpr ⟨?_, ih⟩
          cases h <;> trivial

theorem RelAssumptions.flatten_eq {β : Type} {enter : β → List GenericParam → List GenericParam → β}
    {T : β → Ty → Ty → Prop} {E : β → List GenericParam → List GenericParam → Prop} {b : β}
    {as as' : List Assumption} (h : RelAssumptions enter T E b as as') (has : FlatAssumptions as) :
    Assumption.flatten as' = as' := by
  rw [Assumption.flatten_eq]
  induction as generalizing as' with
  | nil =>
      cases h
      rfl
  | cons a as ih =>
      cases h with
      | @cons _ _ a' _ as' h hs =>
          have ha : a'.facts = [a'] := by
            cases h with
            | all h => exact has.1.elim
            | traitImpl | normalizesTo | implies => rfl
          rw [List.flatMap_cons, ha, ih hs has.2]
          rfl

/- A scope says at least how the parameters around a place are renamed. -/
variable {β : Type} {binders : β → Binders} {enter : β → List GenericParam → List GenericParam → β}
  (hbinders : ∀ b gs gs', binders (enter b gs gs') = (binders b).enter gs gs')
  {w : Walker (StateT σ Option)} {P : β → σ → Prop} {T : σ → β → Ty → Ty → Prop}
  {E : σ → β → List GenericParam → List GenericParam → Prop}
  (hP : ∀ b, Stable le (P b)) (hty : ∀ b t, Grows le (P b) (w.ty (binders b) t) fun s t' => T s b t t')
  (henter : ∀ b gs, Grows le (P b) (gs.mapM w.rename)
    fun s gs' => E s b gs gs' ∧ P (enter b gs gs') s)
include hbinders hP hty henter

mutual

theorem Goal.walk_grows (b : β) : (g : Goal) → g.Flat →
    Grows le (P b) (g.walk w (binders b)) fun s g' => g.Rel enter (T s) (E s) b g'
  | .exists gs g, hflat => by
      rw [Goal.walk]
      refine .bind (hP b) (henter b gs) fun gs' => ?_
      rw [← hbinders]
      refine .bind ((hP b).and (fun s gs' => E s b gs gs' ∧ P (enter b gs gs') s) gs')
        ((Goal.walk_grows (enter b gs gs') g hflat).weaken fun s h => (h.2 s (refl_of le s)).2)
        fun g' => .pure fun s u h hu => .exists (h.1.2 u hu).1 (h.2 u hu)
  | .implies as g, hflat => by
      rw [Goal.walk]
      refine .bind (hP b) (walkAssumptions_grows b as hflat.1) fun as' => ?_
      refine .bind ((hP b).and (fun s as' => RelAssumptions enter (T s) (E s) b as as') as')
        ((Goal.walk_grows b g hflat.2).weaken fun _ h => h.1) fun g' => .pure fun s u h hu => ?_
      have has := h.1.2 u hu
      rw [has.flatten_eq hflat.1]
      exact .implies has (h.2 u hu)
  | .all gs, hflat => by
      rw [Goal.walk]
      refine .bind (hP b) (walkGoals_grows b gs hflat.1) fun gs' => .pure fun s u h hu => ?_
      have hgs := h.2 u hu
      rw [Goal.mkAll, Goal.conjunctsList_eq_flatMap, flatMap_conjuncts_self (hgs.single hflat.2)]
      exact .all hgs
  | .atom a, _ => by
      rw [Goal.walk]
      exact .bind (hP b) (Atom.mapM_grows (hP b) (hty b) a) fun a' =>
        .pure fun s u h hu => .atom (h.2 u hu)
  | .maybe, _ => by
      rw [Goal.walk]
      exact .pure fun _ _ _ _ => .maybe

theorem Assumption.walk_grows (b : β) : (a : Assumption) → a.Flat →
    Grows le (P b) (a.walk w (binders b)) fun s a' => a.Rel enter (T s) (E s) b a'
  | .traitImpl t r, _ => by
      rw [Assumption.walk]
      refine .bind (hP b) (hty b t) fun t' => ?_
      refine .bind ((hP b).and (fun s t' => T s b t t') t')
        ((TraitRef.mapM_grows (hP b) (hty b) r).weaken fun _ h => h.1) fun r' =>
          .pure fun s u h hu => .traitImpl (h.1.2 u hu) (h.2 u hu)
  | .normalizesTo a t, _ => by
      rw [Assumption.walk]
      refine .bind (hP b) (AliasTy.mapM_grows (hP b) (hty b) a) fun a' => ?_
      refine .bind ((hP b).and (fun s a' => a.Rel (T s b) a') a')
        ((hty b t).weaken fun _ h => h.1) fun t' =>
          .pure fun s u h hu => .normalizesTo (h.1.2 u hu) (h.2 u hu)
  | .implies gs p, hflat => by
      rw [Assumption.walk]
      refine .bind (hP b) (walkGoals_grows b gs hflat) fun gs' => ?_
      refine .bind ((hP b).and (fun s gs' => RelGoals enter (T s) (E s) b gs gs') gs')
        ((WherePredicate.mapM_grows (hP b) (hty b) p).weaken fun _ h => h.1) fun p' =>
          .pure fun s u h hu => .implies (h.1.2 u hu) (h.2 u hu)
  | .all as, hflat => hflat.elim

theorem walkGoals_grows (b : β) : (gs : List Goal) → FlatGoals gs →
    Grows le (P b) (walkGoals w (binders b) gs) fun s gs' => RelGoals enter (T s) (E s) b gs gs'
  | [], _ => by
      rw [walkGoals]
      exact .pure fun _ _ _ _ => .nil
  | g :: gs, hflat => by
      rw [walkGoals]
      refine .bind (hP b) (Goal.walk_grows b g hflat.1) fun g' => ?_
      refine .bind ((hP b).and (fun s g' => g.Rel enter (T s) (E s) b g') g')
        ((walkGoals_grows b gs hflat.2).weaken fun _ h => h.1) fun gs' =>
          .pure fun s u h hu => .cons (h.1.2 u hu) (h.2 u hu)

theorem walkAssumptions_grows (b : β) : (as : List Assumption) → FlatAssumptions as →
    Grows le (P b) (walkAssumptions w (binders b) as)
      fun s as' => RelAssumptions enter (T s) (E s) b as as'
  | [], _ => by
      rw [walkAssumptions]
      exact .pure fun _ _ _ _ => .nil
  | a :: as, hflat => by
      rw [walkAssumptions]
      refine .bind (hP b) (Assumption.walk_grows b a hflat.1) fun a' => ?_
      refine .bind ((hP b).and (fun s a' => a.Rel enter (T s) (E s) b a') a')
        ((walkAssumptions_grows b as hflat.2).weaken fun _ h => h.1) fun as' =>
          .pure fun s u h hu => .cons (h.1.2 u hu) (h.2 u hu)

end

end Grows

/-! ### Two traversals side by side -/

section Lockstep

variable {σ τ : Type} {R : σ → τ → Prop}

section Parts

variable {f : Ty → StateT σ Option Ty} {g : Ty → StateT τ Option Ty} {T : Ty → Ty → Prop}
  (h : ∀ t u, T t u → Lockstep R (f t) (g u))
include h

theorem mapM_lockstep {ts us : List Ty} (hts : List.Forall₂ T ts us) :
    Lockstep R (ts.mapM f) (us.mapM g) :=
  .mapM (hts.imp h)

theorem TraitRef.mapM_lockstep {r r' : TraitRef} (hr : r.Rel T r') :
    Lockstep R (r.mapM f) (r'.mapM g) := by
  rw [TraitRef.mapM, TraitRef.mapM, hr.traitSym]
  exact (Sage.mapM_lockstep h hr.args).bind fun _ => .pure _

theorem WherePredicate.mapM_lockstep {p p' : WherePredicate} (hp : p.Rel T p') :
    Lockstep R (p.mapM f) (p'.mapM g) :=
  (h _ _ hp.selfTy).bind fun _ => (TraitRef.mapM_lockstep h hp.traitRef).bind fun _ => .pure _

theorem Atom.mapM_lockstep : {a a' : Atom} → a.Rel T a' → Lockstep R (a.mapM f) (a'.mapM g)
  | .traitImpl _ _, .traitImpl _ _, ha =>
      (h _ _ ha.1).bind fun _ => (TraitRef.mapM_lockstep h ha.2).bind fun _ => .pure _
  | .equals _ _, .equals _ _, ha => (h _ _ ha.1).bind fun _ => (h _ _ ha.2).bind fun _ => .pure _

theorem AliasTy.mapM_lockstep : {a a' : AliasTy} → a.Rel T a' → Lockstep R (a.mapM f) (a'.mapM g)
  | .named _ _, .named _ _, ⟨rfl, hargs⟩ => (Sage.mapM_lockstep h hargs).bind fun _ => .pure _
  | .associated _ _ _ _ _, .associated _ _ _ _ _, ⟨rfl, rfl, ht, htargs, hargs⟩ =>
      (h _ _ ht).bind fun _ => (Sage.mapM_lockstep h htargs).bind fun _ =>
        (Sage.mapM_lockstep h hargs).bind fun _ => .pure _
  | .opaqueAlias _ _, .opaqueAlias _ _, ⟨rfl, hargs⟩ =>
      (Sage.mapM_lockstep h hargs).bind fun _ => .pure _

end Parts

/- `I` relates a scope to the renamings of both sides. -/
variable {β : Type} {enter : β → List GenericParam → List GenericParam → β}
  {w : Walker (StateT σ Option)} {w' : Walker (StateT τ Option)} {T : β → Ty → Ty → Prop}
  {E : β → List GenericParam → List GenericParam → Prop} {I : β → Binders → Binders → Prop}
  (hty : ∀ b c c', I b c c' → ∀ t u, T b t u → Lockstep R (w.ty c t) (w'.ty c' u))
  (hrename : ∀ b gs gs', E b gs gs' → Lockstep R (gs.mapM w.rename) (gs'.mapM w'.rename))
  (henter : ∀ b c c' gs gs' ts, I b c c' → E b gs gs' → ts.length = gs.length →
    I (enter b gs gs') (c.enter gs ts) (c'.enter gs' ts))
include hty hrename henter

mutual

theorem Goal.walk_lockstep {b : β} {c c' : Binders} (hI : I b c c') : (g g' : Goal) →
    g.Rel enter T E b g' → Lockstep R (g.walk w c) (g'.walk w' c')
  | .exists gs g, .exists gs' g', .exists hgs h => by
      rw [Goal.walk, Goal.walk]
      refine (hrename b gs gs' hgs).bind_of fun ts s s' hts => ?_
      have hI := henter b c c' gs gs' ts hI hgs (length_mapM hts)
      exact (Goal.walk_lockstep hI g g' h).bind fun _ => .pure _
  | .implies as g, .implies as' g', .implies has h => by
      rw [Goal.walk, Goal.walk]
      refine (walkAssumptions_lockstep hI as as' has).bind fun as => ?_
      exact (Goal.walk_lockstep hI g g' h).bind fun _ => .pure _
  | .all gs, .all gs', .all h => by
      rw [Goal.walk, Goal.walk]
      exact (walkGoals_lockstep hI gs gs' h).bind fun _ => .pure _
  | .atom a, .atom a', .atom h => by
      rw [Goal.walk, Goal.walk]
      exact (Atom.mapM_lockstep (hty b c c' hI) h).bind fun _ => .pure _
  | .maybe, .maybe, _ => by
      rw [Goal.walk, Goal.walk]
      exact .pure _

theorem Assumption.walk_lockstep {b : β} {c c' : Binders} (hI : I b c c') : (a a' : Assumption) →
    a.Rel enter T E b a' → Lockstep R (a.walk w c) (a'.walk w' c')
  | .traitImpl t r, .traitImpl t' r', .traitImpl ht hr => by
      rw [Assumption.walk, Assumption.walk]
      refine (hty b c c' hI t t' ht).bind fun _ => ?_
      exact (TraitRef.mapM_lockstep (hty b c c' hI) hr).bind fun _ => .pure _
  | .normalizesTo a t, .normalizesTo a' t', .normalizesTo ha ht => by
      rw [Assumption.walk, Assumption.walk]
      refine (AliasTy.mapM_lockstep (hty b c c' hI) ha).bind fun _ => ?_
      exact (hty b c c' hI t t' ht).bind fun _ => .pure _
  | .implies gs p, .implies gs' p', .implies hgs hp => by
      rw [Assumption.walk, Assumption.walk]
      refine (walkGoals_lockstep hI gs gs' hgs).bind fun _ => ?_
      exact (WherePredicate.mapM_lockstep (hty b c c' hI) hp).bind fun _ => .pure _
  | .all as, .all as', .all h => by
      rw [Assumption.walk, Assumption.walk]
      exact (walkAssumptions_lockstep hI as as' h).bind fun _ => .pure _

theorem walkGoals_lockstep {b : β} {c c' : Binders} (hI : I b c c') : (gs gs' : List Goal) →
    RelGoals enter T E b gs gs' → Lockstep R (walkGoals w c gs) (walkGoals w' c' gs')
  | [], [], _ => by
      rw [walkGoals, walkGoals]
      exact .pure []
  | g :: gs, g' :: gs', .cons h hs => by
      rw [walkGoals, walkGoals]
      refine (Goal.walk_lockstep hI g g' h).bind fun _ => ?_
      exact (walkGoals_lockstep hI gs gs' hs).bind fun _ => .pure _

theorem walkAssumptions_lockstep {b : β} {c c' : Binders} (hI : I b c c') :
    (as as' : List Assumption) → RelAssumptions enter T E b as as' →
      Lockstep R (walkAssumptions w c as) (walkAssumptions w' c' as')
  | [], [], _ => by
      rw [walkAssumptions, walkAssumptions]
      exact .pure []
  | a :: as, a' :: as', .cons h hs => by
      rw [walkAssumptions, walkAssumptions]
      refine (Assumption.walk_lockstep hI a a' h).bind fun _ => ?_
      exact (walkAssumptions_lockstep hI as as' hs).bind fun _ => .pure _

end

end Lockstep

/-! ### Traversals that end -/

section Defined

variable {σ : Type}

section Parts

variable {γ : Type} {f : ℕ → γ → Ty → StateT σ Option Ty}
  (h : ∀ t, ∀ᶠ n in atTop, ∀ b, Defined (f n b t))
include h

theorem mapM_defined : (ts : List Ty) → ∀ᶠ n in atTop, ∀ b, Defined (ts.mapM (f n b))
  | [] => .of_forall fun n b => .mapM (by simp)
  | t :: ts => by
      filter_upwards [h t, mapM_defined ts] with n ht hts b
      rw [List.mapM_cons]
      exact (ht b).bind fun _ => (hts b).bind fun _ => .pure _

theorem TraitRef.mapM_defined (r : TraitRef) : ∀ᶠ n in atTop, ∀ b, Defined (r.mapM (f n b)) :=
  (Sage.mapM_defined h r.args).mono fun _ hr b => (hr b).bind fun _ => .pure _

theorem WherePredicate.mapM_defined (p : WherePredicate) :
    ∀ᶠ n in atTop, ∀ b, Defined (p.mapM (f n b)) := by
  filter_upwards [h p.selfTy, TraitRef.mapM_defined h p.traitRef] with n ht hr b
  exact (ht b).bind fun _ => (hr b).bind fun _ => .pure _

theorem Atom.mapM_defined : (a : Atom) → ∀ᶠ n in atTop, ∀ b, Defined (a.mapM (f n b))
  | .traitImpl t r => by
      filter_upwards [h t, TraitRef.mapM_defined h r] with n ht hr b
      exact (ht b).bind fun _ => (hr b).bind fun _ => .pure _
  | .equals l r => by
      filter_upwards [h l, h r] with n hl hr b
      exact (hl b).bind fun _ => (hr b).bind fun _ => .pure _

theorem AliasTy.mapM_defined : (a : AliasTy) → ∀ᶠ n in atTop, ∀ b, Defined (a.mapM (f n b))
  | .named _ args | .opaqueAlias _ args =>
      (Sage.mapM_defined h args).mono fun _ hargs b => (hargs b).bind fun _ => .pure _
  | .associated _ t _ targs args => by
      filter_upwards [h t, Sage.mapM_defined h targs, Sage.mapM_defined h args] with n ht hts has b
      exact (ht b).bind fun _ => (hts b).bind fun _ => (has b).bind fun _ => .pure _

end Parts

variable {w : ℕ → Walker (StateT σ Option)}
  (hty : ∀ t, ∀ᶠ n in atTop, ∀ b, Defined ((w n).ty b t))
  (hrename : ∀ n p, Defined ((w n).rename p))
include hty hrename

mutual

theorem Goal.walk_defined : (g : Goal) → ∀ᶠ n in atTop, ∀ b, Defined (g.walk (w n) b)
  | .exists gs g => (Goal.walk_defined g).mono fun n hg b => by
      rw [Goal.walk]
      exact (Defined.mapM fun p _ => hrename n p).bind fun _ => (hg _).bind fun _ => .pure _
  | .implies as g => by
      filter_upwards [walkAssumptions_defined as, Goal.walk_defined g] with n has hg b
      rw [Goal.walk]
      exact (has b).bind fun _ => (hg b).bind fun _ => .pure _
  | .all gs => (walkGoals_defined gs).mono fun n hgs b => by
      rw [Goal.walk]
      exact (hgs b).bind fun _ => .pure _
  | .atom a => (Atom.mapM_defined hty a).mono fun n ha b => by
      rw [Goal.walk]
      exact (ha b).bind fun _ => .pure _
  | .maybe => .of_forall fun n b => by
      rw [Goal.walk]
      exact .pure _

theorem Assumption.walk_defined : (a : Assumption) → ∀ᶠ n in atTop, ∀ b, Defined (a.walk (w n) b)
  | .traitImpl t r => by
      filter_upwards [hty t, TraitRef.mapM_defined hty r] with n ht hr b
      rw [Assumption.walk]
      exact (ht b).bind fun _ => (hr b).bind fun _ => .pure _
  | .normalizesTo a t => by
      filter_upwards [AliasTy.mapM_defined hty a, hty t] with n ha ht b
      rw [Assumption.walk]
      exact (ha b).bind fun _ => (ht b).bind fun _ => .pure _
  | .implies gs p => by
      filter_upwards [walkGoals_defined gs, WherePredicate.mapM_defined hty p] with n hgs hp b
      rw [Assumption.walk]
      exact (hgs b).bind fun _ => (hp b).bind fun _ => .pure _
  | .all as => (walkAssumptions_defined as).mono fun n has b => by
      rw [Assumption.walk]
      exact (has b).bind fun _ => .pure _

theorem walkGoals_defined : (gs : List Goal) → ∀ᶠ n in atTop, ∀ b, Defined (walkGoals (w n) b gs)
  | [] => .of_forall fun n b => by
      rw [walkGoals]
      exact .pure []
  | g :: gs => by
      filter_upwards [Goal.walk_defined g, walkGoals_defined gs] with n hg hgs b
      rw [walkGoals]
      exact (hg b).bind fun _ => (hgs b).bind fun _ => .pure _

theorem walkAssumptions_defined : (as : List Assumption) →
    ∀ᶠ n in atTop, ∀ b, Defined (walkAssumptions (w n) b as)
  | [] => .of_forall fun n b => by
      rw [walkAssumptions]
      exact .pure []
  | a :: as => by
      filter_upwards [Assumption.walk_defined a, walkAssumptions_defined as] with n ha has b
      rw [walkAssumptions]
      exact (ha b).bind fun _ => (has b).bind fun _ => .pure _

end

end Defined

end Sage
