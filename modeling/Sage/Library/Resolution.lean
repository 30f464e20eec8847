import Sage.Library.Chase
import Sage.Library.Term

/-!
# Library — the substitution a union-find over terms stands for

Elements of `α` name terms through `τ : α → Term S V`, and a parent map `p` on `α` merges
them.  A substitution *respects* `p` when it makes every element equal to its parent.  The
substitution `ρ` *resolves* `p` when it respects `p` and leaves the variables of roots alone.

* `Resolves.absorbs` — `ρ` is a most general respecting substitution: every `θ` that respects
  `p` satisfies `θ = θ ∘ ρ`.
* `Resolves.update_of_eq` — re-pointing an element at a root with the same resolution leaves
  `ρ` in place.
* `Resolves.update_var` — pointing a root variable at a root that does not mention it composes
  `ρ` with one binding.
-/

namespace Resolution

open Terms Chase

variable {α S V W : Type} {p : α → α} {τ : α → Term S V}

/-- `θ` makes every element equal to its parent. -/
def Respects (p : α → α) (τ : α → Term S V) (θ : V → Term S W) : Prop :=
  ∀ a, (τ (p a)).subst θ = (τ a).subst θ

/-- The elements name every variable, every argument of a node they name, and no term twice. -/
structure Names (τ : α → Term S V) : Prop where
  injective : Function.Injective τ
  var : ∀ v, ∃ a, τ a = .var v
  arg : ∀ a s args, τ a = .node s args → ∀ b ∈ args, ∃ c, τ c = b

/-- `ρ` respects `p` and fixes the variables that are their own representatives. -/
structure Resolves (p : α → α) (τ : α → Term S V) (ρ : V → Term S V) : Prop where
  respects : Respects p τ ρ
  root_var : ∀ a v, τ a = .var v → p a = a → ρ v = .var v

theorem Respects.reaches {θ : V → Term S W} (h : Respects p τ θ) {a r : α}
    (hr : Reaches p a r) : (τ r).subst θ = (τ a).subst θ := by
  induction hr with
  | root => rfl
  | step _ _ ih => rw [ih, h]

/-- Two elements with one root are equal under every respecting substitution. -/
theorem Respects.eq_of_reaches {θ : V → Term S W} (h : Respects p τ θ) {a b r : α}
    (ha : Reaches p a r) (hb : Reaches p b r) : (τ a).subst θ = (τ b).subst θ :=
  (h.reaches ha).symm.trans (h.reaches hb)

namespace Resolves

variable {ρ : V → Term S V}

/-- The resolution of a term is the resolution of its root, which is a fixed variable or a
node over resolved arguments. -/
theorem absorbs_subst (hn : Names τ) (hp : Grounded p) (hρ : Resolves p τ ρ)
    {θ : V → Term S W} (hθ : Respects p τ θ) (a : α) :
    ((τ a).subst ρ).subst θ = (τ a).subst θ := by
  obtain ⟨k, hk⟩ : ∃ k, ((τ a).subst ρ).size = k := ⟨_, rfl⟩
  induction k using Nat.strongRecOn generalizing a with
  | ind k ih =>
      obtain ⟨r, hr⟩ := hp a
      rw [← hρ.respects.reaches hr, ← hθ.reaches hr]
      rw [← hρ.respects.reaches hr] at hk
      cases hτ : τ r with
      | var v => rw [Term.subst_var, hρ.root_var r v hτ hr.is_root]
      | node s args =>
          rw [hτ, Term.subst_node] at hk
          simp only [Term.subst_node, List.map_map, Term.node.injEq, true_and]
          refine List.map_congr_left fun b hb => ?_
          obtain ⟨c, rfl⟩ := hn.arg r s args hτ b hb
          have hlt : ((τ c).subst ρ).size < k := hk ▸ Term.size_lt_node (List.mem_map_of_mem hb)
          exact ih _ hlt c rfl

/-- Every respecting substitution is an instance of the resolution. -/
theorem absorbs (hn : Names τ) (hp : Grounded p) (hρ : Resolves p τ ρ)
    {θ : V → Term S W} (hθ : Respects p τ θ) (v : V) : (ρ v).subst θ = θ v := by
  obtain ⟨a, ha⟩ := hn.var v
  simpa [ha] using absorbs_subst hn hp hρ hθ a

theorem respects_iff (hn : Names τ) (hp : Grounded p) (hρ : Resolves p τ ρ)
    {θ : V → Term S W} : Respects p τ θ ↔ ∀ v, (ρ v).subst θ = θ v := by
  refine ⟨absorbs hn hp hρ, fun h a => ?_⟩
  have key : ∀ t : Term S V, (t.subst ρ).subst θ = t.subst θ := fun t => by
    rw [Term.subst_subst]; exact Term.subst_congr fun v _ => h v
  rw [← key (τ (p a)), hρ.respects a, key]

theorem idempotent (hn : Names τ) (hp : Grounded p) (hρ : Resolves p τ ρ) (v : V) :
    (ρ v).subst ρ = ρ v :=
  absorbs hn hp hρ hρ.respects v

/-- A resolved term mentions fixed variables only. -/
theorem fixed_of_mem (hn : Names τ) (hp : Grounded p) (hρ : Resolves p τ ρ) {t : Term S V}
    {v : V} (hv : v ∈ (t.subst ρ).vars) : ρ v = .var v := by
  refine Term.subst_eq_self_iff.mp ?_ v hv
  rw [Term.subst_subst]
  exact Term.subst_congr fun w _ => hρ.idempotent hn hp w

section Update

variable [DecidableEq α]

/-- Re-pointing `d` at an element that resolves alike keeps the resolution. -/
theorem update_of_eq (hρ : Resolves p τ ρ) {d r : α} (hne : r ≠ d)
    (heq : (τ r).subst ρ = (τ d).subst ρ) : Resolves (Function.update p d r) τ ρ where
  respects a := by
    by_cases had : a = d
    · subst had; simpa using heq
    · simpa [had] using hρ.respects a
  root_var a v hv ha := by
    by_cases had : a = d
    · subst had; exact absurd (by simpa using ha) hne
    · exact hρ.root_var a v hv (by simpa [had] using ha)

variable [DecidableEq V]

/-- The substitution that sends `x` to `t` and fixes every other variable. -/
def single (x : V) (t : Term S V) : V → Term S V := Function.update Term.var x t

theorem single_subst_of_notMem {x : V} {t u : Term S V} (h : x ∉ u.vars) :
    u.subst (single x t) = u := by
  refine Term.subst_eq_self_iff.mpr fun v hv => ?_
  have : v ≠ x := fun e => h (e ▸ hv)
  simp [single, this]

/-- Pointing the root variable `x` at a root that does not mention it binds `x`. -/
theorem update_var (hn : Names τ) (hρ : Resolves p τ ρ) {d r : α} {x : V} (hd : τ d = .var x)
    (hroot : p d = d) (hx : x ∉ ((τ r).subst ρ).vars) :
    Resolves (Function.update p d r) τ (fun v => (ρ v).subst (single x ((τ r).subst ρ))) := by
  have hsubst : ∀ t : Term S V, t.subst (fun v => (ρ v).subst (single x ((τ r).subst ρ))) =
      (t.subst ρ).subst (single x ((τ r).subst ρ)) := fun t => (Term.subst_subst _ _ _).symm
  refine ⟨fun a => ?_, fun a v hv ha => ?_⟩
  · by_cases had : a = d
    · subst had
      have hρx : ρ x = .var x := hρ.root_var a x hd hroot
      rw [Function.update_self, hsubst, hd, Term.subst_var, hρx, Term.subst_var,
        single_subst_of_notMem hx]
      simp [single]
    · rw [Function.update_of_ne had, hsubst, hsubst, hρ.respects a]
  · have had : a ≠ d := by
      rintro rfl
      refine hx ?_
      have hra : r = a := by simpa using ha
      rw [hra, hd, Term.subst_var, hρ.root_var a x hd hroot]; simp
    have hvx : v ≠ x := by
      rintro rfl
      exact had (hn.injective (hv.trans hd.symm))
    rw [hρ.root_var a v hv (by simpa [had] using ha)]
    simp [single, hvx]

end Update

end Resolves

end Resolution
