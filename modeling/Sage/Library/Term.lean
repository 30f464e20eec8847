import Mathlib.Data.List.Basic
import Mathlib.Tactic.Tauto

/-!
# Library — first-order terms and their substitutions

A term is a variable or a head applied to a list of terms; the head carries its own arity, so
nothing here fixes how many arguments it takes.  `subst` replaces every variable, `vars` lists
the variables in order, `size` counts nodes, and `All P Q` says that every head satisfies `P`
and every variable `Q`.

* `subst_subst`, `subst_congr`, `subst_var_eq_self` — the laws of substitution.
* `all_subst` — a property of a substituted term is a property of the term and of the
  substitution on its variables.
* `size_le_size_subst`, `size_lt_size_subst` — a term that mentions `x` is at least as large
  under `θ` as `θ x`, and larger when it is not `x` itself: the occurs check.
-/

namespace Terms

/-- A finite tree over heads `S` and variables `V`. -/
inductive Term (S V : Type) where
  | var (v : V)
  | node (s : S) (args : List (Term S V))

namespace Term

variable {S V W X : Type}

/-- Induction on a term, with the hypothesis for each argument of a node. -/
@[elab_as_elim, induction_eliminator]
theorem induct {motive : Term S V → Prop} (var : ∀ v, motive (.var v))
    (node : ∀ s args, (∀ a ∈ args, motive a) → motive (.node s args)) (t : Term S V) :
    motive t := by
  refine @Term.rec S V motive (fun args => ∀ a ∈ args, motive a) var node ?_ ?_ t
  · intro a ha
    simp at ha
  · intro b bs hb hbs a ha
    rcases List.mem_cons.mp ha with rfl | ha
    · exact hb
    · exact hbs a ha

section DecidableEq

variable [DecidableEq S] [DecidableEq V]

mutual

def decEq : (a b : Term S V) → Decidable (a = b)
  | .var v, .var w => decidable_of_iff (v = w) (by simp)
  | .var _, .node _ _ => isFalse (by simp)
  | .node _ _, .var _ => isFalse (by simp)
  | .node s as, .node t bs =>
      match decEqList as bs with
      | isTrue h => decidable_of_iff (s = t) (by simp [h])
      | isFalse h => isFalse (by simp [h])

def decEqList : (as bs : List (Term S V)) → Decidable (as = bs)
  | [], [] => isTrue rfl
  | [], _ :: _ => isFalse (by simp)
  | _ :: _, [] => isFalse (by simp)
  | a :: as, b :: bs =>
      match decEq a b, decEqList as bs with
      | isTrue h, isTrue h' => isTrue (by simp [h, h'])
      | isFalse h, _ => isFalse (by simp [h])
      | _, isFalse h => isFalse (by simp [h])

end

instance : DecidableEq (Term S V) := decEq

end DecidableEq

/-! ### Substitution -/

mutual

/-- `t.subst θ` is `t` with every variable `v` replaced by `θ v`. -/
@[grind =] def subst (θ : V → Term S W) : Term S V → Term S W
  | .var v => θ v
  | .node s args => .node s (substList θ args)

def substList (θ : V → Term S W) : List (Term S V) → List (Term S W)
  | [] => []
  | a :: as => subst θ a :: substList θ as

end

theorem substList_eq_map (θ : V → Term S W) (as : List (Term S V)) :
    substList θ as = as.map (subst θ) := by
  induction as with
  | nil => rfl
  | cons a as ih => simp [substList, ih]

@[simp] theorem subst_var (θ : V → Term S W) (v : V) : (var v).subst θ = θ v := by
  simp [subst]

@[simp] theorem subst_node (θ : V → Term S W) (s : S) (args : List (Term S V)) :
    (node s args).subst θ = node s (args.map (subst θ)) := by
  simp [subst, substList_eq_map]

theorem subst_subst (θ : V → Term S W) (σ : W → Term S X) (t : Term S V) :
    (t.subst θ).subst σ = t.subst (fun v => (θ v).subst σ) := by
  induction t with
  | var v => simp
  | node s args ih => simpa using ih

@[simp] theorem subst_var_eq_self (t : Term S V) : t.subst var = t := by
  induction t with
  | var v => simp
  | node s args ih =>
      rw [subst_node, List.map_congr_left ih, List.map_id']

/-! ### Variables -/

mutual

/-- The variables of a term, left to right and with repetitions. -/
@[grind =] def vars : Term S V → List V
  | .var v => [v]
  | .node _ args => varsList args

def varsList : List (Term S V) → List V
  | [] => []
  | a :: as => vars a ++ varsList as

end

theorem mem_varsList {v : V} {as : List (Term S V)} :
    v ∈ varsList as ↔ ∃ a ∈ as, v ∈ a.vars := by
  induction as with
  | nil => simp [varsList]
  | cons a as ih => simp [varsList, ih]

@[simp] theorem mem_vars_var {v w : V} : v ∈ (var w : Term S V).vars ↔ v = w := by
  simp [vars]

@[simp] theorem mem_vars_node {v : V} {s : S} {args : List (Term S V)} :
    v ∈ (node s args).vars ↔ ∃ a ∈ args, v ∈ a.vars := by
  simp [vars, mem_varsList]

theorem subst_congr {θ σ : V → Term S W} {t : Term S V} (h : ∀ v ∈ t.vars, θ v = σ v) :
    t.subst θ = t.subst σ := by
  induction t with
  | var v => exact h v (by simp)
  | node s args ih =>
      simp only [subst_node, node.injEq, true_and]
      refine List.map_congr_left fun a ha => ih a ha fun v hv => h v ?_
      exact mem_vars_node.mpr ⟨a, ha, hv⟩

/-- A substitution fixes a term exactly when it fixes the variables of it. -/
theorem subst_eq_self_iff {θ : V → Term S V} {t : Term S V} :
    t.subst θ = t ↔ ∀ v ∈ t.vars, θ v = var v := by
  refine ⟨fun h => ?_, fun h => (subst_congr h).trans t.subst_var_eq_self⟩
  induction t with
  | var v => simpa using h
  | node s args ih =>
      rw [subst_node, node.injEq] at h
      intro v hv
      obtain ⟨a, ha, hv⟩ := mem_vars_node.mp hv
      exact ih a ha (List.map_inj_left.mp (h.2.trans (List.map_id args).symm) a ha) v hv

theorem mem_vars_subst {θ : V → Term S W} {w : W} {t : Term S V} :
    w ∈ (t.subst θ).vars ↔ ∃ v ∈ t.vars, w ∈ (θ v).vars := by
  induction t with
  | var v => simp
  | node s args ih =>
      simp only [subst_node, mem_vars_node, List.mem_map]
      constructor
      · rintro ⟨_, ⟨a, ha, rfl⟩, hw⟩
        obtain ⟨v, hv, hw⟩ := (ih a ha).mp hw
        exact ⟨v, ⟨a, ha, hv⟩, hw⟩
      · rintro ⟨v, ⟨a, ha, hv⟩, hw⟩
        exact ⟨_, ⟨a, ha, rfl⟩, (ih a ha).mpr ⟨v, hv, hw⟩⟩

/-! ### A property of every head and every variable -/

mutual

/-- Every head of the term satisfies `P` and every variable of it `Q`. -/
@[grind =] def All (P : S → Prop) (Q : V → Prop) : Term S V → Prop
  | .var v => Q v
  | .node s args => P s ∧ AllList P Q args

def AllList (P : S → Prop) (Q : V → Prop) : List (Term S V) → Prop
  | [] => True
  | a :: as => All P Q a ∧ AllList P Q as

end

theorem allList_iff {P : S → Prop} {Q : V → Prop} {as : List (Term S V)} :
    AllList P Q as ↔ ∀ a ∈ as, a.All P Q := by
  induction as with
  | nil => simp [AllList]
  | cons a as ih => simp [AllList, ih]

@[simp] theorem all_var {P : S → Prop} {Q : V → Prop} {v : V} :
    (var v : Term S V).All P Q ↔ Q v := by
  simp [All]

@[simp] theorem all_node {P : S → Prop} {Q : V → Prop} {s : S} {args : List (Term S V)} :
    (node s args).All P Q ↔ P s ∧ ∀ a ∈ args, a.All P Q := by
  simp [All, allList_iff]

theorem all_subst {P : S → Prop} {Q : W → Prop} {θ : V → Term S W} {t : Term S V} :
    (t.subst θ).All P Q ↔ t.All P fun v => (θ v).All P Q := by
  induction t with
  | var v => simp
  | node s args ih =>
      simp only [subst_node, all_node, List.forall_mem_map]
      exact and_congr_right fun _ => forall₂_congr ih

theorem All.imp {P P' : S → Prop} {Q Q' : V → Prop} {t : Term S V} (h : t.All P Q)
    (hP : ∀ s, P s → P' s) (hQ : ∀ v ∈ t.vars, Q v → Q' v) : t.All P' Q' := by
  induction t with
  | var v => exact hQ v (by simp) h
  | node s args ih =>
      rw [all_node] at h ⊢
      exact ⟨hP s h.1, fun a ha => ih a ha (h.2 a ha) fun v hv =>
        hQ v (mem_vars_node.mpr ⟨a, ha, hv⟩)⟩

theorem All.of_mem {P : S → Prop} {Q : V → Prop} {t : Term S V} (h : t.All P Q) :
    ∀ v ∈ t.vars, Q v := by
  induction t with
  | var v => simpa using h
  | node s args ih =>
      intro v hv
      obtain ⟨a, ha, hv⟩ := mem_vars_node.mp hv
      exact ih a ha ((all_node.mp h).2 a ha) v hv

theorem All.and {P P' : S → Prop} {Q : V → Prop} {t : Term S V} (h : t.All P Q)
    (h' : t.All P' Q) : t.All (fun s => P s ∧ P' s) Q := by
  induction t with
  | var v => simpa using h
  | node s args ih =>
      rw [all_node] at h h' ⊢
      exact ⟨⟨h.1, h'.1⟩, fun a ha => ih a ha (h.2 a ha) (h'.2 a ha)⟩

theorem all_and_iff {P : S → Prop} {Q : V → Prop} {t : Term S V} :
    t.All P Q ↔ t.All P (fun _ => True) ∧ ∀ v ∈ t.vars, Q v :=
  ⟨fun h => ⟨h.imp (fun _ => id) fun _ _ _ => trivial, h.of_mem⟩,
    fun h => h.1.imp (fun _ => id) fun v hv _ => h.2 v hv⟩

/-! ### Size -/

mutual

/-- The number of nodes and variables of a term. -/
@[grind =] def size : Term S V → Nat
  | .var _ => 1
  | .node _ args => sizeList args + 1

def sizeList : List (Term S V) → Nat
  | [] => 0
  | a :: as => size a + sizeList as

end

@[simp] theorem size_var (v : V) : (var v : Term S V).size = 1 := by simp [size]

theorem size_pos (t : Term S V) : 0 < t.size := by
  cases t <;> simp [size]

theorem size_le_sizeList {a : Term S V} {as : List (Term S V)} (h : a ∈ as) :
    a.size ≤ sizeList as := by
  induction as with
  | nil => simp at h
  | cons b bs ih =>
      rcases List.mem_cons.mp h with rfl | h
      · simp [sizeList]
      · have := ih h
        simp only [sizeList]; omega

theorem size_lt_node {a : Term S V} {s : S} {args : List (Term S V)} (h : a ∈ args) :
    a.size < (node s args).size := by
  have := size_le_sizeList h
  simp only [size]; omega

/-- A term is at least as large, under `θ`, as the image of any variable it mentions. -/
theorem size_le_size_subst {θ : V → Term S W} {v : V} {t : Term S V} (h : v ∈ t.vars) :
    (θ v).size ≤ (t.subst θ).size := by
  induction t with
  | var w => simp_all
  | node s args ih =>
      obtain ⟨a, ha, hv⟩ := mem_vars_node.mp h
      have hlt : (a.subst θ).size < ((node s args).subst θ).size := by
        rw [subst_node]
        exact size_lt_node (List.mem_map_of_mem ha)
      exact Nat.le_of_lt (Nat.lt_of_le_of_lt (ih a ha hv) hlt)

/-- The occurs check: a node that mentions `v` is larger under `θ` than `θ v`. -/
theorem size_lt_size_subst {θ : V → Term S W} {v : V} {s : S} {args : List (Term S V)}
    (h : v ∈ (node s args).vars) : (θ v).size < ((node s args).subst θ).size := by
  obtain ⟨a, ha, hv⟩ := mem_vars_node.mp h
  have hlt : (a.subst θ).size < ((node s args).subst θ).size := by
    rw [subst_node]
    exact size_lt_node (List.mem_map_of_mem ha)
  exact Nat.lt_of_le_of_lt (size_le_size_subst hv) hlt

end Term

end Terms
