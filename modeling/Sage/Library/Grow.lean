import Mathlib.Data.List.Forall2
import Mathlib.Order.Defs.Unbundled

/-!
# Library — traversals over a growing state

A traversal runs in `StateT σ Option` and only adds to its state: `le s t` says that `t` extends
`s`.

* `Grows le P f Q` — from a state with `P`, which extensions keep, `f` ends in an extension, and its
  result meets `Q` there and in every further extension.
* `Lockstep R f g` — two runs from related states that both end have the same result, in related
  states.
* `Defined f` — `f` ends, from every state.

Each comes with its rules for sequences (`bind`) and loops over lists (`mapM`).
-/

namespace Grow

variable {σ τ α β : Type}

theorem bind_eq_some {x : StateT σ Option α} {f : α → StateT σ Option β} {s : σ} {r : β × σ} :
    (x >>= f) s = some r ↔ ∃ a t, x s = some (a, t) ∧ f a t = some r := by
  change (x s >>= fun p => f p.1 p.2) = some r ↔ _
  exact Option.bind_eq_some_iff.trans Prod.exists

theorem pure_eq_some {a b : α} {s t : σ} :
    (pure a : StateT σ Option α) s = some (b, t) ↔ b = a ∧ t = s := by
  change some (a, s) = some (b, t) ↔ _
  simp [eq_comm]

theorem map_eq_some {f : α → β} {x : StateT σ Option α} {s t : σ} {b : β} :
    (f <$> x) s = some (b, t) ↔ ∃ a, x s = some (a, t) ∧ f a = b := by
  change (x s >>= fun p => some (f p.1, p.2)) = some (b, t) ↔ _
  simp [Option.bind_eq_some_iff]

theorem length_mapM {f : α → StateT σ Option β} {xs : List α} {ys : List β} {s t : σ}
    (h : xs.mapM f s = some (ys, t)) : ys.length = xs.length := by
  induction xs generalizing ys s t with
  | nil =>
      rw [List.mapM_nil] at h
      obtain ⟨rfl, -⟩ := pure_eq_some.mp h
      rfl
  | cons x xs ih =>
      rw [List.mapM_cons] at h
      obtain ⟨b, r, -, h⟩ := bind_eq_some.mp h
      obtain ⟨bs, r', hbs, h⟩ := bind_eq_some.mp h
      obtain ⟨rfl, -⟩ := pure_eq_some.mp h
      rw [List.length_cons, List.length_cons, ih hbs]

/-! ### What a traversal adds -/

section Grows

variable (le : σ → σ → Prop)

/-- From a state with `P`, `f` extends the state, and its result meets `Q` from then on. -/
def Grows (P : σ → Prop) (f : StateT σ Option α) (Q : σ → α → Prop) : Prop :=
  ∀ s, P s → ∀ a t, f s = some (a, t) → le s t ∧ ∀ u, le t u → Q u a

/-- A property that extensions of a state keep. -/
def Stable (P : σ → Prop) : Prop := ∀ s t, le s t → P s → P t

variable {le} {P : σ → Prop} {Q : σ → α → Prop}

/-- A property of the state and of an earlier result, from that result on. -/
theorem Stable.and [IsTrans σ le] (hP : Stable le P) (Q : σ → α → Prop) (a : α) :
    Stable le fun s => P s ∧ ∀ u, le s u → Q u a :=
  fun s t hst h => ⟨hP s t hst h.1, fun u hu => h.2 u (trans_of le hst hu)⟩

theorem Grows.pure [Std.Refl le] {a : α} (h : ∀ s u, P s → le s u → Q u a) :
    Grows le P (Pure.pure a : StateT σ Option α) Q := by
  intro s hs b t hrun
  obtain ⟨rfl, rfl⟩ := pure_eq_some.mp hrun
  exact ⟨refl_of le t, fun u hu => h t u hs hu⟩

theorem Grows.bind [IsTrans σ le] {Q' : σ → β → Prop} {x : StateT σ Option α} {f : α → StateT σ Option β}
    (hP : Stable le P) (hx : Grows le P x Q)
    (hf : ∀ a, Grows le (fun s => P s ∧ ∀ u, le s u → Q u a) (f a) Q') : Grows le P (x >>= f) Q' := by
  intro s hs b t hrun
  obtain ⟨a, r, hx', hf'⟩ := bind_eq_some.mp hrun
  obtain ⟨hle, hQ⟩ := hx s hs a r hx'
  obtain ⟨hle', hQ'⟩ := hf a r ⟨hP s r hle hs, hQ⟩ b t hf'
  exact ⟨trans_of le hle hle', hQ'⟩

theorem Grows.mono {P' : σ → Prop} {Q' : σ → α → Prop} {x : StateT σ Option α}
    (h : Grows le P x Q) (hP : ∀ s, P' s → P s) (hQ : ∀ s a, Q s a → Q' s a) : Grows le P' x Q' :=
  fun s hs a t hrun =>
    let ⟨hle, hq⟩ := h s (hP s hs) a t hrun
    ⟨hle, fun u hu => hQ u a (hq u hu)⟩

/-- The same computation, from states with more known. -/
theorem Grows.weaken {P' : σ → Prop} {x : StateT σ Option α} (h : Grows le P x Q)
    (hP : ∀ s, P' s → P s) : Grows le P' x Q := h.mono hP fun _ _ => id

/-- A loop over a list, with a relation between each element and its result. -/
theorem Grows.mapM [Std.Refl le] [IsTrans σ le] {f : α → StateT σ Option β} {R : σ → α → β → Prop} {xs : List α}
    (hP : Stable le P) (hf : ∀ a ∈ xs, Grows le P (f a) fun s b => R s a b) :
    Grows le P (xs.mapM f) fun s ys => List.Forall₂ (R s) xs ys := by
  induction xs with
  | nil =>
      rw [List.mapM_nil]
      exact .pure fun _ _ _ _ => .nil
  | cons a xs ih =>
      rw [List.mapM_cons]
      refine .bind hP (hf a List.mem_cons_self) fun b => ?_
      have ih := ih fun c hc => hf c (List.mem_cons_of_mem _ hc)
      refine .bind (hP.and _ b) (ih.weaken fun _ h => h.1) fun bs => ?_
      exact .pure fun s u h hu => .cons (h.1.2 u hu) (h.2 u hu)

end Grows

/-! ### Two runs side by side -/

section Lockstep

variable {R : σ → τ → Prop}

/-- From related states, `f` and `g` agree where both end, and end in related states. -/
def Lockstep (R : σ → τ → Prop) (f : StateT σ Option α) (g : StateT τ Option α) : Prop :=
  ∀ s t, R s t → ∀ a s' b t', f s = some (a, s') → g t = some (b, t') → a = b ∧ R s' t'

theorem Lockstep.pure (a : α) : Lockstep R (Pure.pure a) (Pure.pure a) := by
  intro s t h b s' c t' hf hg
  obtain ⟨rfl, rfl⟩ := pure_eq_some.mp hf
  obtain ⟨rfl, rfl⟩ := pure_eq_some.mp hg
  exact ⟨rfl, h⟩

/-- The second computation may use what the first one can return. -/
theorem Lockstep.bind_of {x : StateT σ Option α} {y : StateT τ Option α}
    {f : α → StateT σ Option β} {g : α → StateT τ Option β} (hx : Lockstep R x y)
    (hf : ∀ a s s', x s = some (a, s') → Lockstep R (f a) (g a)) :
    Lockstep R (x >>= f) (y >>= g) := by
  intro s t h b s' c t' hs ht
  obtain ⟨a, s₁, hx₁, hf₁⟩ := bind_eq_some.mp hs
  obtain ⟨a', t₁, hy₁, hg₁⟩ := bind_eq_some.mp ht
  obtain ⟨rfl, h₁⟩ := hx s t h a s₁ a' t₁ hx₁ hy₁
  exact hf a s s₁ hx₁ s₁ t₁ h₁ b s' c t' hf₁ hg₁

theorem Lockstep.bind {x : StateT σ Option α} {y : StateT τ Option α}
    {f : α → StateT σ Option β} {g : α → StateT τ Option β} (hx : Lockstep R x y)
    (hf : ∀ a, Lockstep R (f a) (g a)) : Lockstep R (x >>= f) (y >>= g) :=
  hx.bind_of fun a _ _ _ => hf a

theorem Lockstep.mapM {γ : Type} {f : β → StateT σ Option α} {g : γ → StateT τ Option α}
    {xs : List β} {ys : List γ} (h : List.Forall₂ (fun x y => Lockstep R (f x) (g y)) xs ys) :
    Lockstep R (xs.mapM f) (ys.mapM g) := by
  induction h with
  | nil =>
      rw [List.mapM_nil, List.mapM_nil]
      exact .pure []
  | cons hxy _ ih =>
      rw [List.mapM_cons, List.mapM_cons]
      exact hxy.bind fun a => ih.bind fun as => .pure (a :: as)

end Lockstep

/-! ### Runs that end -/

def Defined (f : StateT σ Option α) : Prop := ∀ s, f s ≠ none

theorem Defined.pure (a : α) : Defined (Pure.pure a : StateT σ Option α) := fun _ => nofun

theorem Defined.bind {x : StateT σ Option α} {f : α → StateT σ Option β} (hx : Defined x)
    (hf : ∀ a, Defined (f a)) : Defined (x >>= f) := by
  intro s hnone
  obtain ⟨⟨a, t⟩, hrun⟩ := Option.ne_none_iff_exists'.mp (hx s)
  obtain ⟨r, hrun'⟩ := Option.ne_none_iff_exists'.mp (hf a t)
  exact Option.some_ne_none r ((bind_eq_some.mpr ⟨a, t, hrun, hrun'⟩).symm.trans hnone)

theorem Defined.mapM {f : α → StateT σ Option β} {xs : List α} (h : ∀ a ∈ xs, Defined (f a)) :
    Defined (xs.mapM f) := by
  induction xs with
  | nil =>
      rw [List.mapM_nil]
      exact .pure []
  | cons a xs ih =>
      rw [List.mapM_cons]
      refine (h a List.mem_cons_self).bind fun b => ?_
      exact (ih fun c hc => h c (List.mem_cons_of_mem a hc)).bind fun bs => .pure (b :: bs)

end Grow
