import Mathlib.Data.List.Basic
import Sage.Library.Grow

/-!
# Library — related computations

Two computations, in two monads, that are related when their results are.

* `Relator` — a way to relate them that sequencing respects, with its rules for loops over lists
  (`mapM`) and for options.
* `Relator.definite` — an optional computation that has a result.
* `Relator.below` — two optional computations, the first with at least the results of the second.
* `Relator.carries` — a computation over a growing state that succeeds where an optional one does;
  the results are related in every state from then on (`Carries`, `carries_iff`).
-/

/-- What relates computations.  A later step is related on the assumption that the earlier results
are; that assumption may only become true at the end. -/
structure Relator (M N : Type → Type) [Monad M] [Monad N] where
  rel : {α β : Type} → (α → β → Prop) → M α → N β → Prop
  pure : ∀ {α β : Type} {R : α → β → Prop} {a : α} {b : β}, R a b → rel R (Pure.pure a) (Pure.pure b)
  bind : ∀ {α β γ δ : Type} {R : α → β → Prop} {S : γ → δ → Prop} {x : M α} {y : N β}
    {f : α → M γ} {g : β → N δ}, rel R x y → (∀ a b, rel (fun c d => R a b → S c d) (f a) (g b)) →
    rel S (x >>= f) (y >>= g)

namespace Relator

theorem forall₂_iff_mapM {α β : Type} {f : α → Option β} {as : List α} {bs : List β} :
    List.Forall₂ (fun a b => f a = some b) as bs ↔ as.mapM f = some bs := by
  induction as generalizing bs with
  | nil => simp
  | cons a as ih =>
      rw [List.mapM_cons]
      constructor
      · rintro (_ | ⟨h, hs⟩)
        simp [h, ih.mp hs]
      · intro h
        obtain ⟨b, hb, h⟩ := Option.bind_eq_some_iff.mp h
        obtain ⟨bs, hbs, ⟨⟩⟩ := Option.bind_eq_some_iff.mp h
        exact .cons hb (ih.mpr hbs)

section Rules

variable {M N : Type → Type} [Monad M] [Monad N] [LawfulMonad M] [LawfulMonad N] (L : Relator M N)
  {α β γ δ : Type} {R : α → β → Prop} {S : γ → δ → Prop}

theorem mono {S : α → β → Prop} {x : M α} {y : N β} (h : L.rel R x y)
    (hS : ∀ a b, R a b → S a b) : L.rel S x y := by
  rw [← bind_pure x, ← bind_pure y]
  exact L.bind h fun a b => L.pure (hS a b)

theorem map {x : M α} {y : N β} {f : α → γ} {g : β → δ} (h : L.rel R x y)
    (hS : ∀ a b, R a b → S (f a) (g b)) : L.rel S (f <$> x) (g <$> y) := by
  rw [map_eq_pure_bind, map_eq_pure_bind]
  exact L.bind h fun a b => L.pure (hS a b)

/-- A loop over one list, in both monads. -/
theorem mapM {ι : Type} {f : ι → M α} {g : ι → N β} {xs : List ι}
    (h : ∀ i ∈ xs, L.rel R (f i) (g i)) : L.rel (List.Forall₂ R) (xs.mapM f) (xs.mapM g) := by
  induction xs with
  | nil =>
      rw [List.mapM_nil, List.mapM_nil]
      exact L.pure .nil
  | cons x xs ih =>
      rw [List.mapM_cons, List.mapM_cons]
      refine L.bind (h x List.mem_cons_self) fun a b => ?_
      refine L.bind (ih fun i hi => h i (List.mem_cons_of_mem x hi)) fun as bs => ?_
      exact L.pure fun hs h => .cons h hs

theorem option {ι : Type} {f : ι → M α} {g : ι → N β} {o : Option ι}
    (h : ∀ i ∈ o, L.rel R (f i) (g i)) : L.rel (Option.Rel R) (o.mapM f) (o.mapM g) := by
  cases o with
  | none => exact L.pure .none
  | some i => exact L.map (h i rfl) fun _ _ => .some

variable {r : α → Option β}

/-- The results of a loop, where those of the first monad are read to give those of the second. -/
theorem mapM_read {ι : Type} {f : ι → M α} {g : ι → N β} {xs : List ι}
    (h : ∀ i ∈ xs, L.rel (fun a b => r a = some b) (f i) (g i)) :
    L.rel (fun as bs => as.mapM r = some bs) (xs.mapM f) (xs.mapM g) :=
  L.mono (L.mapM h) fun _ _ => forall₂_iff_mapM.mp

theorem option_read {ι : Type} {f : ι → M α} {g : ι → N β} {o : Option ι}
    (h : ∀ i ∈ o, L.rel (fun a b => r a = some b) (f i) (g i)) :
    L.rel (fun as bs => as.mapM r = some bs) (o.mapM f) (o.mapM g) := by
  refine L.mono (L.option h) fun a b hab => ?_
  cases hab with
  | none => rfl
  | some h => simp [h]

end Rules

/-! ### Three relators -/

section Instances

variable {α β σ : Type}

/-- The first computation has the results of the second. -/
def below : Relator Option Option where
  rel R x y := ∀ b, y = some b → ∃ a, x = some a ∧ R a b
  pure h := by
    rintro _ ⟨⟩
    exact ⟨_, rfl, h⟩
  bind := by
    intro _ _ _ _ R S x y f g hx hf d hd
    obtain ⟨b, hb, hd⟩ := Option.bind_eq_some_iff.mp hd
    obtain ⟨a, rfl, ha⟩ := hx b hb
    obtain ⟨c, hc, hS⟩ := hf a b d hd
    exact ⟨c, hc, hS ha⟩

/-- The computation has a result. -/
def definite : Relator Option Id where
  rel R x y := ∃ a, x = some a ∧ R a y
  pure h := ⟨_, rfl, h⟩
  bind := by
    rintro _ _ _ _ R S x y f g ⟨a, rfl, ha⟩ hf
    obtain ⟨c, hc, hS⟩ := hf a y
    exact ⟨c, hc, hS ha⟩

/-- From a state with `P`, the first computation succeeds where the second does and keeps `P`; the
results are related if `final` extends the state it ends in. -/
def carries (le : σ → σ → Prop) [IsTrans σ le] [Std.Refl le] (P : σ → Prop) (final : σ) :
    Relator (StateT σ Option) Option where
  rel R x y := ∀ b, y = some b → ∀ s, P s → ∃ a t, x s = some (a, t) ∧ P t ∧ le s t ∧
    (le t final → R a b)
  pure h := by
    rintro _ ⟨⟩ s hs
    exact ⟨_, s, rfl, hs, refl_of le s, fun _ => h⟩
  bind := by
    intro _ _ _ _ R S x y f g hx hf d hd s hs
    obtain ⟨b, hb, hd⟩ := Option.bind_eq_some_iff.mp hd
    obtain ⟨a, t, hrun, ht, hle, hR⟩ := hx b hb s hs
    obtain ⟨c, u, hrun', hu, hle', hS⟩ := hf a b d hd t ht
    exact ⟨c, u, Grow.bind_eq_some.mpr ⟨a, t, hrun, hrun'⟩, hu, trans_of le hle hle', fun h =>
      hS h (hR (trans_of le hle' h))⟩

/-- `x` succeeds where `y` does, keeps `P`, and its result is related to the one of `y` in every
state from then on. -/
def Carries (le : σ → σ → Prop) (P : σ → Prop) (R : σ → α → β → Prop) (x : StateT σ Option α)
    (y : Option β) : Prop :=
  ∀ b, y = some b → ∀ s, P s → ∃ a t, x s = some (a, t) ∧ P t ∧ le s t ∧
    ∀ final, le t final → R final a b

theorem carries_iff {le : σ → σ → Prop} [IsTrans σ le] [Std.Refl le] {P : σ → Prop}
    {R : σ → α → β → Prop} {x : StateT σ Option α} {y : Option β} :
    Carries le P R x y ↔ ∀ final, (carries le P final).rel (R final) x y := by
  constructor
  · intro h final b hb s hs
    obtain ⟨a, t, hrun, ht, hle, hR⟩ := h b hb s hs
    exact ⟨a, t, hrun, ht, hle, hR final⟩
  · intro h b hb s hs
    obtain ⟨a, t, hrun, ht, hle, -⟩ := h s b hb s hs
    refine ⟨a, t, hrun, ht, hle, fun final hfinal => ?_⟩
    -- the run does not depend on the state the results are compared in
    obtain ⟨a', t', hrun', -, -, hR⟩ := h final b hb s hs
    cases hrun.symm.trans hrun'
    exact hR hfinal

end Instances

end Relator
