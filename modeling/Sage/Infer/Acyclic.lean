import Sage.Infer.TryUnify

/-!
# Inference — acyclicity and termination

The occurs check is made where a variable is bound; unions of variables, path compression,
congruence rebuilding and collapses re-point parents without one.  None of them closes a cycle:
in every live version of a reachable state the pointers lead to representatives, and what the
variables unfold to is finite.  So every loop and recursion over it ends.

* `Unfolds` — what is finite about a live version, and which traversals of it end.
* `reachable_unfolds` — every live version of a reachable state unfolds, and in a leaf
  version unification and rebuilding end too.
-/

namespace Chase

variable {α : Type} {p : α → α}

/-- An element on a cycle of a grounded map is its own parent. -/
theorem Grounded.eq_of_iterate (hp : Grounded p) {a : α} {n : Nat} (h : p^[n + 1] a = a) :
    p a = a := by
  obtain ⟨r, hr⟩ := hp a
  -- around the cycle the chain comes back to `a`, so every element of it is on the cycle
  induction hr generalizing n with
  | root hr => exact hr
  | @step a r hne _ ih =>
      have hback : p^[n + 1] (p a) = p a := by
        rw [← Function.iterate_succ_apply, Function.iterate_succ_apply', h]
      have hfixed : p (p a) = p a := ih hback
      have hstay : p^[n] (p a) = p a := Function.iterate_fixed hfixed n
      exact hstay.symm.trans ((Function.iterate_succ_apply p n a).symm.trans h)

end Chase

namespace Sage

open Loop

/-- A recursion with fuel ends: from some fuel on it has one result. -/
def Arrives {α : Type} (f : Nat → Option α) : Prop := ∃ a M, ∀ m ≥ M, f m = some a

theorem Arrives.of_refines {α : Type} {f : Nat → Option α}
    (hmono : ∀ {n m}, n ≤ m → Refines (f n) (f m)) (h : ∃ n, f n ≠ none) : Arrives f := by
  obtain ⟨n, hn⟩ := h
  obtain ⟨a, ha⟩ := Option.ne_none_iff_exists'.mp hn
  exact ⟨a, n, fun m hm => hmono hm a ha⟩

namespace VersionedEGraph

variable {g g' : VersionedEGraph} {v : Version} {S : Store}

/-! ### Path compression -/

/-- Where the chain from a type arrives within `n` steps, so does the compression of its path,
whatever part of it already points at the root. -/
theorem compressPathFrom_stable {p : Ty → Ty} {root : Ty} (hroot : p root = root) (n : Nat) :
    ∀ (g : VersionedEGraph) (t : Ty), g.WF → v < g.states.length →
      (∀ s, g.getParent v s = p s ∨ g.getParent v s = root) → Chase.chase p n t = root →
      ∀ m ≥ n, compressPathFrom m g v t root = compressPathFrom n g v t root := by
  induction n with
  | zero =>
      rintro g t - - hagree rfl m -
      cases m with
      | zero => rfl
      | succ m =>
          have hstop : g.getParent v t = t := (hagree t).elim (·.trans hroot) id
          simp only [compressPathFrom, hstop, or_true, if_true]
  | succ n ih =>
      intro g t hg hv hagree hchase m hm
      obtain ⟨m, rfl⟩ := Nat.exists_eq_add_one_of_ne_zero (Nat.ne_zero_of_lt hm)
      simp only [compressPathFrom]
      split
      · rfl
      rename_i hstop
      obtain ⟨hne, hmoved⟩ := not_or.mp hstop
      have hpt : g.getParent v t = p t := (hagree t).resolve_right hne
      have hset := getParent_setParent hg hv t root
      refine ih _ _ (hg.modifyState _) (by simpa [setParent] using hv) (fun s => ?_) ?_ m
        (Nat.le_of_succ_le_succ hm)
      · change (g.setParent v t root).getParent v s = p s ∨ (g.setParent v t root).getParent v s = root
        rw [hset]
        by_cases hst : s = t
        · subst hst
          exact .inr (Function.update_self ..)
        · rw [Function.update_of_ne hst]
          exact hagree s
      · rw [hpt, ← Chase.chase_succ_of_moved (hpt ▸ hmoved)]
        exact hchase

/-! ### What unfolds to something finite -/

/-- The pointers of `v` have no cycle and lead to representatives, every type resolves to a
finite one, no resolved variable occurs in its own resolution, and the loops that follow them
end. -/
structure Unfolds (g : VersionedEGraph) (v : Version) : Prop where
  acyclic : ∀ t n, (g.getParent v)^[n + 1] t = t → g.getParent v t = t
  find : ∀ t, g.getParent v (g.find v t) = g.find v t ∧
    ∀ m ≥ g.chainBound v, Chase.chase (g.getParent v) m t = g.find v t
  findMut : ∀ t, ∀ m ≥ g.chainBound v,
    compressPathFrom m g v t (g.find v t) = (g.findMut v t).2
  deepResolve : ∃ ρ : InferVarIndex → Ty,
    (∀ t, ∃ M, ∀ m ≥ M, g.deepResolve v m t = some (t.subst ρ)) ∧
    ∀ x, x ∈ (ρ x).vars → g.find v (.inferVar x) = .inferVar x
  occursIn : ∀ needle t visited, Arrives fun n => g.occursIn v needle n t visited

theorem Represents.unfolds (h : Represents g v S) : g.Unfolds v where
  acyclic t n ht := h.grounded.eq_of_iterate ht
  find t := by
    obtain ⟨root, hroot⟩ := h.grounded t
    refine ⟨getParent_find h.grounded t, fun m hm => ?_⟩
    rw [Chase.chase_eq_of_reaches (fun _ => mem_keys_of_moved) hm hroot]
    exact ((find_eq_iff h.grounded).mpr hroot).symm
  findMut t := compressPathFrom_stable (getParent_find h.grounded t) _ g t h.wf h.lt
    (fun _ => .inl rfl) rfl
  deepResolve := by
    refine ⟨S.resolve, fun t => ⟨_, fun m hm => h.deepResolve m t hm⟩, fun x hx => ?_⟩
    have hunresolved : S.Unresolved x := by
      rw [← Ty.subst_inferVar S.resolve x] at hx
      exact Store.unresolved_of_mem hx
    exact h.find_eq_inferVar.mpr ((Ty.subst_inferVar _ x).trans hunresolved)
  occursIn needle t visited :=
    .of_refines (fun hnm => occursIn_mono hnm t visited)
      ⟨_, h.occursIn_ne_none _ t visited (Nat.lt_succ_self _)⟩

/-! ### Writing to a leaf version -/

section Writes

variable [HashOrder]

theorem Represents.rebuild_arrives (h : Represents g v S) : Arrives fun n => g.rebuild n v :=
  .of_refines (fun hnm => rebuildFrom_mono hnm (g, [])) h.rebuild_ends

/-- Unification ends in a version that unfolds again, successful or not, and so do the rounds
of congruence closure it leaves behind. -/
theorem Represents.unify_arrives (h : Represents g v S) (left right : Ty) :
    ∃ r g', (∃ M, ∀ m ≥ M, unifyInProbe m v left right g = some (r, g')) ∧ g'.Unfolds v ∧
      Arrives fun n => g'.rebuild n v := by
  obtain ⟨⟨r, g'⟩, M, hM⟩ : Arrives fun n => unifyInProbe n v left right g :=
    .of_refines (fun hnm => unifyInProbe_mono hnm left right g) (unifyInProbe_ends h left right)
  obtain ⟨S', h'⟩ := keepsStore_unifyInProbe (hM M (Nat.le_refl M)) S h
  exact ⟨r, g', ⟨M, hM⟩, h'.unfolds, h'.rebuild_arrives⟩

/-- In every live version of a reachable state the pointers have no cycle and every variable
unfolds to a finite type that it does not occur in.  So `find`, the occurs check and deep
resolution end there, and unification and rebuilding end in every version that may be written
to, also the rounds that unification leaves behind. -/
theorem reachable_unfolds (hg : Reachable Bound.IsExact g) (hv : g.versions.isLive v = true) :
    g.Unfolds v ∧ (g.versions.children v = [] →
      (∀ left right, ∃ r g', (∃ M, ∀ m ≥ M, unifyInProbe m v left right g = some (r, g')) ∧
        g'.Unfolds v ∧ Arrives fun n => g'.rebuild n v) ∧
      Arrives fun n => g.rebuild n v) := by
  obtain ⟨S, h⟩ := (hg.modelled fun _ => id).store v hv
  exact ⟨h.unfolds, fun _ => ⟨h.unify_arrives, h.rebuild_arrives⟩⟩

end Writes

/-- One fresh variable in the root version. -/
theorem reachable_unfolds_fresh :
    (VersionedEGraph.new.allocVarInDomain 0 0 .any).2.Unfolds 0 ∧
      ((VersionedEGraph.new.allocVarInDomain 0 0 .any).2.versions.children 0 = [] →
        (∀ left right, ∃ r g', (∃ M, ∀ m ≥ M, unifyInProbe m 0 left right
            (VersionedEGraph.new.allocVarInDomain 0 0 .any).2 = some (r, g')) ∧
          g'.Unfolds 0 ∧ Arrives fun n => g'.rebuild n 0) ∧
        Arrives fun n => (VersionedEGraph.new.allocVarInDomain 0 0 .any).2.rebuild n 0) := by
  have hroot : VersionedEGraph.new.IsMutable 0 := ⟨by decide, by decide⟩
  exact reachable_unfolds (.step .new (.alloc hroot 0 .any)) (by decide)

end VersionedEGraph

end Sage
