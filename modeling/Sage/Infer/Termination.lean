import Sage.Infer.Mgu
import Sage.Infer.Rebuild

/-!
# Inference — unification ends

A call that ends does so in the same way with any larger amount of fuel.  The recursion of
unification ends because a call either resolves a variable of the finitely many its types
mention, or leaves every resolution in place and goes on with smaller types.

* `unifyInProbe_mono`, `rebuild_mono` — more fuel changes no result.
* `unifyInProbe_ends` — enough fuel gives a result.
-/

namespace Sage

open Loop

namespace VersionedEGraph

variable {g : VersionedEGraph} {v : Version} {S : Store} {n m : Nat}

/-! ### More fuel changes no result -/

theorem anyVisited_mono {f f' : Ty → List Ty → Option (Bool × List Ty)}
    (h : ∀ c before, Refines (f c before) (f' c before)) (cs before : List Ty) :
    Refines (anyVisited f cs before) (anyVisited f' cs before) := by
  induction cs generalizing before with
  | nil => exact Refines.refl _
  | cons c cs ih =>
      intro x hx
      rw [anyVisited] at hx ⊢
      split at hx
      · cases hx
      · rename_i hc
        rw [h c before _ hc]
        exact hx
      · rename_i hc
        rw [h c before _ hc]
        exact ih _ x hx

theorem occursIn_mono {needle : InferVarIndex} (h : n ≤ m) :
    ∀ t before, Refines (g.occursIn v needle n t before) (g.occursIn v needle m t before) := by
  induction n generalizing m with
  | zero => intro t before x hx; cases hx
  | succ n ih =>
      obtain ⟨m, rfl⟩ : ∃ k, m = k + 1 := ⟨m - 1, by omega⟩
      have ih := ih (Nat.le_of_succ_le_succ h)
      intro t before
      simp only [occursIn]
      split
      · exact Refines.refl _
      split
      · split
        · exact Refines.refl _
        split
        · exact Refines.refl _
        · exact ih _ _
      · exact anyVisited_mono ih _ _

theorem accessHead_mono {outerVariable ceiling} {recurse recurse' : Ty → List Ty × VersionedEGraph →
      Outcome UnifyError (List Ty × VersionedEGraph) Unit}
    (h : ∀ t s, Refines (recurse t s) (recurse' t s)) (t : Ty) (s : List Ty × VersionedEGraph) :
    Refines (accessHead v outerVariable ceiling recurse t s)
      (accessHead v outerVariable ceiling recurse' t s) := by
  obtain ⟨visited, g⟩ := s
  cases t with
  | inferVar x =>
      simp only [accessHead]
      split
      · exact h _ _
      · exact Refines.refl _
  | _ => exact Refines.refl _

theorem makeAccessible_mono {outerVariable ceiling} (h : n ≤ m) : ∀ t s,
    Refines (makeAccessible v outerVariable ceiling n t s)
      (makeAccessible v outerVariable ceiling m t s) := by
  induction n generalizing m with
  | zero => intro t s x hx; cases hx
  | succ n ih =>
      obtain ⟨m, rfl⟩ : ∃ k, m = k + 1 := ⟨m - 1, by omega⟩
      have ih := ih (Nat.le_of_succ_le_succ h)
      rintro t ⟨visited, g⟩
      simp only [makeAccessible]
      split
      · exact Refines.refl _
      · exact (accessHead_mono ih _ _).andThen fun _ s => forEach_mono ih _ s

theorem bindVariable_mono {variableTy value : Ty} {x : InferVarIndex} (h : n ≤ m) :
    Refines (g.bindVariable n v variableTy x value) (g.bindVariable m v variableTy x value) := by
  intro r hr
  simp only [bindVariable] at hr ⊢
  split at hr
  · cases hr
  · rename_i hocc
    rw [occursIn_mono h _ _ _ hocc]
    exact hr
  · rename_i hocc
    rw [occursIn_mono h _ _ _ hocc]
    split at hr
    · cases hr
    · rename_i hacc
      simp only [makeAccessible_mono h _ _ _ hacc]
      exact hr
    · rename_i hacc
      simp only [makeAccessible_mono h _ _ _ hacc]
      exact hr

theorem unifyRoots_mono {recurse recurse' : Ty → Ty → VersionedEGraph →
      Outcome UnifyError VersionedEGraph Unit} (h : n ≤ m)
    (hrec : ∀ l r g, Refines (recurse l r g) (recurse' l r g)) (left right : Ty) :
    Refines (g.unifyRoots n recurse v left right) (g.unifyRoots m recurse' v left right) := by
  simp only [unifyRoots]
  split
  · exact Refines.refl _
  split
  · exact Refines.refl _
  · exact Refines.refl _
  · exact Refines.refl _
  · split
    · exact Refines.refl _
    · exact bindVariable_mono h
  · split
    · exact Refines.refl _
    · exact bindVariable_mono h
  · simp only [unifyRigid]
    split
    · exact Refines.refl _
    · exact (forEach_mono (fun (p : Ty × Ty) g => hrec p.1 p.2 g) _ _).andThen
        fun _ _ => Refines.refl _

theorem unifyInProbe_mono (h : n ≤ m) : ∀ left right g,
    Refines (unifyInProbe n v left right g) (unifyInProbe m v left right g) := by
  induction n generalizing m with
  | zero => intro left right g x hx; cases hx
  | succ n ih =>
      obtain ⟨m, rfl⟩ : ∃ k, m = k + 1 := ⟨m - 1, by omega⟩
      intro left right g
      rw [unifyInProbe, unifyInProbe]
      exact unifyRoots_mono (Nat.le_of_succ_le_succ h) (ih (Nat.le_of_succ_le_succ h)) _ _

theorem rebuildFrom_mono [HashOrder] (h : n ≤ m) : ∀ acc,
    Refines (rebuildFrom n v acc) (rebuildFrom m v acc) := by
  induction n generalizing m with
  | zero => intro acc x hx; cases hx
  | succ n ih =>
      obtain ⟨m, rfl⟩ : ∃ k, m = k + 1 := ⟨m - 1, by omega⟩
      rintro ⟨g, changed⟩
      simp only [rebuildFrom]
      split
      · exact Refines.refl _
      · exact ih (Nat.le_of_succ_le_succ h) _

/-! ### The recursion ends -/

section Ends

variable {F : Finset InferVarIndex}

theorem bindVariable_ne_none {x : InferVarIndex} {t : Ty} (h : Represents g v S)
    (hn : (t.subst S.resolve).term.size < n) :
    g.bindVariable n v (.inferVar x) x t ≠ none := by
  simp only [bindVariable]
  split
  · rename_i hocc
    exact absurd hocc (h.occursIn_ne_none n t [] hn)
  · simp
  · split
    · rename_i hacc
      exact absurd hacc (makeAccessible_ne_none n t g S [] h hn)
    · simp
    · simp

theorem forEach_unify_mono (h : n ≤ m) (pairs : List (Ty × Ty)) (g : VersionedEGraph) :
    Refines (forEach (fun p : Ty × Ty => unifyInProbe n v p.1 p.2) pairs g)
      (forEach (fun p : Ty × Ty => unifyInProbe m v p.1 p.2) pairs g) :=
  forEach_mono (fun p g => unifyInProbe_mono h p.1 p.2 g) pairs g

/-- With a budget for the recursion on the children, two representatives are unified. -/
theorem unifyRoots_ends {left right : Ty} (h : Represents g v S)
    (hchildren : left.Rigid → ∀ g', Represents g' v S →
      ∃ n, forEach (fun p : Ty × Ty => unifyInProbe n v p.1 p.2)
        ((decompose left).children.zip (decompose right).children) g' ≠ none) :
    ∃ n, g.unifyRoots n (unifyInProbe n v) v left right ≠ none := by
  obtain ⟨budget, hbudget⟩ : ∃ n, left.Rigid →
      forEach (fun p : Ty × Ty => unifyInProbe n v p.1 p.2)
        ((decompose left).children.zip (decompose right).children)
        ((g.addDependents v left).addDependents v right) ≠ none := by
    rcases left.rigid_or_var with hlr | ⟨x, rfl⟩
    · obtain ⟨n, hn⟩ := hchildren hlr _ ((h.addDependents left).addDependents right)
      exact ⟨n, fun _ => hn⟩
    · exact ⟨0, fun hlr => hlr.elim⟩
  refine ⟨max budget (max (left.subst S.resolve).term.size (right.subst S.resolve).term.size + 1),
    ?_⟩
  have hlsize : (left.subst S.resolve).term.size < max budget
      (max (left.subst S.resolve).term.size (right.subst S.resolve).term.size + 1) := by omega
  have hrsize : (right.subst S.resolve).term.size < max budget
      (max (left.subst S.resolve).term.size (right.subst S.resolve).term.size + 1) := by omega
  have hle := Nat.le_max_left budget
    (max (left.subst S.resolve).term.size (right.subst S.resolve).term.size + 1)
  revert hlsize hrsize hle
  generalize max budget _ = fuel
  intro hlsize hrsize hle
  simp only [unifyRoots]
  split
  · simp
  split
  · simp
  · simp
  · simp only [unifyVariables]
    split <;> simp
  · split
    · simp
    · exact bindVariable_ne_none h hrsize
  · split
    · simp
    · exact bindVariable_ne_none h hlsize
  · rename_i hlvar _ _ _
    have hlr : left.Rigid := left.rigid_or_var.resolve_right (not_exists.mpr hlvar)
    simp only [unifyRigid]
    split
    · simp
    · refine andThen_ne_none ?_ fun _ _ _ => by simp
      rw [(forEach_unify_mono hle _ _).eq_of_ne_none (hbudget hlr)]
      exact hbudget hlr

/-- Unification of covered types ends: the induction is on the variables left open, then on
the size of the left type. -/
theorem unifyInProbe_ends_of_card (k : Nat) : ∀ (size : Nat) (left right : Ty)
    (g : VersionedEGraph) (S : Store), Represents g v S → Covers F S left → Covers F S right →
    (S.open_ F).card = k → (left.subst S.resolve).term.size = size →
    ∃ n, unifyInProbe n v left right g ≠ none := by
  induction k using Nat.strongRecOn with
  | ind k ihk =>
  intro size
  induction size using Nat.strongRecOn with
  | ind size ihs =>
  intro left right g S h hl hr hk hsize
  have h₁ := h.findMut left
  have h₂ := h₁.findMut right
  have hl' := hl.find h
  have hr' := hr.find h₁
  obtain ⟨n, hn⟩ := unifyRoots_ends h₂ fun hlr g' h' => by
    -- the loop over the children keeps a store that narrows `S`
    refine forEach_ends (I := fun g => ∃ S', Represents g v S' ∧ S.Narrows F S')
      (fun n m p g hnm => unifyInProbe_mono hnm p.1 p.2 g) (fun p hp g hg => ?_)
      ⟨S, h', .of_resolve rfl⟩
    obtain ⟨S', hrep, hn⟩ := hg
    obtain ⟨hpl, hpr⟩ := List.of_mem_zip hp
    have hc₁ : Covers F S' p.1 := hn.within _ (hl'.child hpl)
    have hc₂ : Covers F S' p.2 := hn.within _ (hr'.child hpr)
    refine ⟨?_, fun n t ht => ?_⟩
    · by_cases he : S'.resolve = S.resolve
      · have hlt : (p.1.subst S'.resolve).term.size < size := by
          rw [he, ← hsize, ← h.subst_find left]
          refine Ty.size_child_lt ?_
          rw [Ty.decompose_subst hlr]
          exact List.mem_map_of_mem hpl
        exact ihs _ hlt p.1 p.2 g S' hrep hc₁ hc₂ ((S.open_congr he F).symm ▸ hk) rfl
      · exact ihk _ (hk ▸ hn.card_lt he) _ p.1 p.2 g S' hrep hc₁ hc₂ rfl rfl
    · obtain ⟨S'', h''⟩ := unifyInProbe_spec n p.1 p.2 g S' _ t hrep hc₁ hc₂ ht
      exact ⟨S'', h''.represents, hn.trans h''.narrows⟩
  refine ⟨n + 1, ?_⟩
  rw [VersionedEGraph.unifyInProbe]
  exact hn

/-- The variables two types mention once they are resolved. -/
def span (S : Store) (left right : Ty) : Finset InferVarIndex :=
  ((left.subst S.resolve).vars ++ (right.subst S.resolve).vars).toFinset

theorem covers_span (S : Store) (left right : Ty) :
    Covers (span S left right) S left ∧ Covers (span S left right) S right :=
  ⟨fun y hy => by simp [span, hy], fun y hy => by simp [span, hy]⟩

/-- Unification ends. -/
theorem unifyInProbe_ends (h : Represents g v S) (left right : Ty) :
    ∃ n, unifyInProbe n v left right g ≠ none := by
  obtain ⟨hl, hr⟩ := covers_span S left right
  exact unifyInProbe_ends_of_card _ _ left right g S h hl hr rfl rfl

end Ends

end VersionedEGraph

end Sage
