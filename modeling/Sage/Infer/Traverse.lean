import Sage.Infer.Represents

/-!
# Inference — the traversals of a type

`occursIn` and `makeAccessible` walk a type through the representatives of its parts and visit
each representative once.  A representative already visited is skipped, so what one call has
seen is not closed under children until the calls around it are done: `Explored` says that
everything visited since a given point is, and that it has the property looked for.

* `Represents.all_of_explored` — a property of everything explored is one of the resolved type.
* `occursIn_spec`, `occursIn_ne_none` — the occurs check decides membership in the variables of
  the resolved type.
* `makeAccessible_spec`, `makeAccessible_ne_none` — a traversal that ends well has lowered
  exactly the variables of the resolved type; one that fails has met a placeholder above it.
-/

namespace Sage

open Loop

namespace VersionedEGraph

variable {g g' : VersionedEGraph} {v : Version} {S : Store}

/-! ### What a traversal has explored -/

section Explored

variable (find : Ty → Ty) (P : Skeleton → Prop) (Q : InferVarIndex → Prop)

/-- A representative with the property looked for, whose children have been visited. -/
structure Done (visited : List Ty) (root : Ty) : Prop where
  var : ∀ x, root = .inferVar x → Q x
  skeleton : root.Rigid → P (decompose root).skeleton
  children : root.Rigid → ∀ c ∈ (decompose root).children, find c ∈ visited

/-- Everything visited since `before` is done. -/
structure Explored (before after : List Ty) : Prop where
  subset : before ⊆ after
  done : ∀ root ∈ after, root ∈ before ∨ Done find P Q after root

variable {find P Q} {before middle after : List Ty}

theorem Done.mono {root : Ty} (h : Done find P Q before root) (hs : before ⊆ after) :
    Done find P Q after root :=
  ⟨h.var, h.skeleton, fun hr c hc => hs (h.children hr c hc)⟩

theorem Explored.refl : Explored find P Q before before :=
  ⟨List.Subset.refl _, fun _ => .inl⟩

theorem Explored.trans (h : Explored find P Q before middle)
    (h' : Explored find P Q middle after) : Explored find P Q before after where
  subset _ hr := h'.subset (h.subset hr)
  done root hr := by
    rcases h'.done root hr with hm | hd
    · exact (h.done root hm).imp_right fun hd => hd.mono h'.subset
    · exact .inr hd

theorem Explored.mono {Q' : InferVarIndex → Prop} (h : Explored find P Q before after)
    (hQ : ∀ x, Q x → Q' x) : Explored find P Q' before after :=
  ⟨h.subset, fun root hr => (h.done root hr).imp_right fun hd =>
    ⟨fun x hx => hQ x (hd.var x hx), hd.skeleton, hd.children⟩⟩

/-- A traversal that visits a root first explores it last. -/
theorem Explored.visit {root : Ty} (h : Explored find P Q (root :: before) after)
    (hd : Done find P Q after root) : Explored find P Q before after where
  subset _ hr := h.subset (List.mem_cons_of_mem _ hr)
  done r hr := by
    rcases h.done r hr with hm | hdr
    · rcases List.mem_cons.mp hm with rfl | hm
      · exact .inr hd
      · exact .inl hm
    · exact .inr hdr

end Explored

/-- Once everything visited is done, the resolution of a visited type has the property. -/
theorem Represents.all_of_explored (h : Represents g v S) {P : Skeleton → Prop}
    {Q : InferVarIndex → Prop} {visited : List Ty} (he : Explored (g.find v) P Q [] visited)
    {t : Ty} (ht : g.find v t ∈ visited) : (t.subst S.resolve).All P Q := by
  obtain ⟨k, hk⟩ : ∃ k, (t.subst S.resolve).term.size = k := ⟨_, rfl⟩
  induction k using Nat.strongRecOn generalizing t with
  | ind k ih =>
      have hd : Done (g.find v) P Q visited (g.find v t) :=
        (he.done _ ht).resolve_left List.not_mem_nil
      rcases (t.subst S.resolve).rigid_or_var with hr | ⟨x, hx⟩
      · obtain ⟨hs, hc⟩ := h.decompose_find hr
        have hf := h.find_rigid.mpr hr
        refine (Ty.all_iff hr).mpr ⟨hs ▸ hd.skeleton hf, fun c hcm => ?_⟩
        have hlt := Ty.size_child_lt hcm
        rw [hc] at hcm
        obtain ⟨b, hb, rfl⟩ := List.mem_map.mp hcm
        exact ih _ (hk ▸ hlt) (hd.children hf b hb) rfl
      · rw [hx, Ty.all_inferVar]
        exact hd.var x (h.find_eq_inferVar.mpr hx)

/-! ### The occurs check -/

section OccursIn

variable {needle : InferVarIndex}

theorem anyVisited_spec {f : Ty → List Ty → Option (Bool × List Ty)} {find : Ty → Ty}
    {P : Skeleton → Prop} {Q : InferVarIndex → Prop} {occurs : Ty → Prop}
    (hf : ∀ c before b after, f c before = some (b, after) → (b = true → occurs c) ∧
      (b = false → Explored find P Q before after ∧ find c ∈ after))
    {cs before : List Ty} {b : Bool} {after : List Ty}
    (h : anyVisited f cs before = some (b, after)) : (b = true → ∃ c ∈ cs, occurs c) ∧
      (b = false → Explored find P Q before after ∧ ∀ c ∈ cs, find c ∈ after) := by
  induction cs generalizing before with
  | nil =>
      obtain ⟨rfl, rfl⟩ := Prod.mk.inj (Option.some.inj h)
      exact ⟨by simp, fun _ => ⟨.refl, by simp⟩⟩
  | cons c cs ih =>
      rw [anyVisited] at h
      split at h
      · cases h
      · rename_i middle hc
        obtain ⟨rfl, rfl⟩ := Prod.mk.inj (Option.some.inj h)
        exact ⟨fun _ => ⟨c, List.mem_cons_self, (hf c _ _ _ hc).1 rfl⟩, by simp⟩
      · rename_i middle hc
        obtain ⟨hex, hcm⟩ := (hf c _ _ _ hc).2 rfl
        obtain ⟨htrue, hfalse⟩ := ih h
        refine ⟨fun hb => ?_, fun hb => ?_⟩
        · obtain ⟨d, hd, hocc⟩ := htrue hb
          exact ⟨d, List.mem_cons_of_mem _ hd, hocc⟩
        · obtain ⟨hex', hcs⟩ := hfalse hb
          refine ⟨hex.trans hex', fun d hd => ?_⟩
          rcases List.mem_cons.mp hd with rfl | hd
          · exact hex'.subset hcm
          · exact hcs d hd

theorem anyVisited_ne_none {f : Ty → List Ty → Option (Bool × List Ty)} {cs before : List Ty}
    (hf : ∀ c ∈ cs, ∀ before, f c before ≠ none) : anyVisited f cs before ≠ none := by
  induction cs generalizing before with
  | nil => simp [anyVisited]
  | cons c cs ih =>
      have hf' := fun d hd => hf d (List.mem_cons_of_mem _ hd)
      rw [anyVisited]
      split
      · rename_i hc
        exact absurd hc (hf c List.mem_cons_self _)
      · simp
      · exact ih hf'

/-- One call of the occurs check: a hit is in the resolved type, a miss has explored it.  The
bound of an unresolved variable leads back to the variable, so it is visited already. -/
theorem Represents.occursIn_spec (h : Represents g v S) (fuel : Nat) :
    ∀ (t : Ty) (before : List Ty) (b : Bool) (after : List Ty),
      g.occursIn v needle fuel t before = some (b, after) →
      (b = true → needle ∈ (t.subst S.resolve).vars) ∧
      (b = false →
        Explored (g.find v) (fun _ => True) (· ≠ needle) before after ∧ g.find v t ∈ after) := by
  induction fuel with
  | zero => intro t before b after hrun; cases hrun
  | succ fuel ih =>
      intro t before b after hrun
      simp only [occursIn] at hrun
      split at hrun
      · rename_i hmem
        obtain ⟨rfl, rfl⟩ := Prod.mk.inj (Option.some.inj hrun)
        exact ⟨by simp, fun _ => ⟨.refl, hmem⟩⟩
      rcases (t.subst S.resolve).rigid_or_var with hr | ⟨x, hx⟩
      · have hf := h.find_rigid.mpr hr
        have hany : anyVisited (g.occursIn v needle fuel) (decompose (g.find v t)).children
            (g.find v t :: before) = some (b, after) := by
          split at hrun
          · rename_i x hx
            rw [hx] at hf; exact hf.elim
          · exact hrun
        obtain ⟨htrue, hfalse⟩ := anyVisited_spec ih hany
        refine ⟨fun hb => ?_, fun hb => ?_⟩
        · obtain ⟨c, hc, hocc⟩ := htrue hb
          rw [← h.subst_find, Ty.mem_vars_subst]
          obtain ⟨y, hy, hocc⟩ := Ty.mem_vars_subst.mp hocc
          exact ⟨y, (Ty.mem_vars_iff hf).mpr ⟨c, hc, hy⟩, hocc⟩
        · obtain ⟨hex, hcs⟩ := hfalse hb
          refine ⟨hex.visit ⟨fun x hx => ?_, fun _ => trivial, fun _ => hcs⟩,
            hex.subset List.mem_cons_self⟩
          rw [hx] at hf; exact hf.elim
      · have hf := h.find_eq_inferVar.mpr hx
        have hu := Store.unresolved_of_eq hx
        rw [hf] at hrun
        by_cases hxn : x = needle
        · simp only [hxn, if_true] at hrun
          obtain ⟨rfl, rfl⟩ := Prod.mk.inj (Option.some.inj hrun)
          exact ⟨fun _ => by rw [hx, hxn]; simp, by simp⟩
        · simp only [hxn, if_false] at hrun
          have hdone : ∀ visited, Done (g.find v) (fun _ => True) (· ≠ needle) visited
              (.inferVar x) := fun visited =>
            ⟨fun y hy => (Ty.inferVar.inj hy) ▸ hxn, fun _ => trivial, fun hr => hr.elim⟩
          rw [hf]
          split at hrun
          · obtain ⟨rfl, rfl⟩ := Prod.mk.inj (Option.some.inj hrun)
            exact ⟨by simp, fun _ => ⟨Explored.refl.visit (hdone _), List.mem_cons_self⟩⟩
          · rename_i bound hb
            obtain ⟨htrue, hfalse⟩ := ih _ _ _ _ hrun
            refine ⟨fun hb' => ?_, fun hb' => ?_⟩
            · have := htrue hb'
              rw [h.bound x bound hb, hu, Ty.mem_vars_inferVar] at this
              exact absurd this.symm hxn
            · have hex := (hfalse hb').1
              exact ⟨hex.visit (hdone _), hex.subset List.mem_cons_self⟩

theorem Represents.occursIn_ne_none (h : Represents g v S) (fuel : Nat) :
    ∀ (t : Ty) (before : List Ty), (t.subst S.resolve).term.size < fuel →
      g.occursIn v needle fuel t before ≠ none := by
  induction fuel with
  | zero => intro t before hlt; exact absurd hlt (Nat.not_lt_zero _)
  | succ fuel ih =>
      intro t before hlt
      simp only [occursIn]
      split
      · simp
      rcases (t.subst S.resolve).rigid_or_var with hr | ⟨x, hx⟩
      · have hf := h.find_rigid.mpr hr
        split
        · rename_i x hx
          rw [hx] at hf; exact hf.elim
        · refine anyVisited_ne_none fun c hc before => ih c before ?_
          have hmem : c.subst S.resolve ∈ (decompose (t.subst S.resolve)).children := by
            rw [(h.decompose_find hr).2]
            exact List.mem_map_of_mem hc
          exact Nat.lt_of_lt_of_le (Ty.size_child_lt hmem) (Nat.le_of_lt_succ hlt)
      · have hf := h.find_eq_inferVar.mpr hx
        have hu := Store.unresolved_of_eq hx
        rw [hf]
        split
        · rename_i y hy
          split
          · simp
          · split
            · simp
            · rename_i bound hb
              obtain rfl := Ty.inferVar.inj hy
              obtain ⟨fuel, rfl⟩ : ∃ k, fuel = k + 1 := by
                rw [hx] at hlt
                have : (Ty.inferVar x).term.size = 1 := by simp
                exact ⟨fuel - 1, by omega⟩
              simp [occursIn, h.find_bound hb hu]
        · rename_i hne
          exact absurd rfl (hne x)

/-- The occurs check on a type decides whether the resolved type mentions the variable. -/
theorem Represents.occursIn_iff (h : Represents g v S) {fuel : Nat} {t : Ty} {b : Bool}
    {after : List Ty} (hrun : g.occursIn v needle fuel t [] = some (b, after)) :
    b = true ↔ needle ∈ (t.subst S.resolve).vars := by
  obtain ⟨htrue, hfalse⟩ := h.occursIn_spec fuel t [] b after hrun
  refine ⟨htrue, fun hmem => ?_⟩
  cases b with
  | true => rfl
  | false =>
      obtain ⟨hex, ht⟩ := hfalse rfl
      exact absurd rfl ((h.all_of_explored hex ht).of_mem needle hmem)

end OccursIn

/-! ### Accessibility -/

theorem headPlaceholder_eq (t : Ty) : headPlaceholder t = (decompose t).skeleton.placeholder := by
  cases t with
  | array _ length => cases length <;> rfl
  | «alias» a => cases a <;> rfl
  | _ => rfl

/-- Universe ceilings of version `v` lowered to `ceiling` at some of the variables in `X`, and
nothing else recorded. -/
structure Lowered (v : Version) (X : Set InferVarIndex) (ceiling : Universe)
    (g g' : VersionedEGraph) : Prop extends Local v g g' where
  versions : g'.versions = g.versions
  parent_eq : (g'.view v).parent = (g.view v).parent
  domain : (g'.view v).domain = (g.view v).domain
  bound : (g'.view v).bound = (g.view v).bound
  dependents : (g'.view v).dependents = (g.view v).dependents
  currentUniverse : ∀ x, g'.currentUniverse v x = g.currentUniverse v x ∨
    x ∈ X ∧ g'.currentUniverse v x = min (g.currentUniverse v x) ceiling

namespace Lowered

variable {X Y : Set InferVarIndex} {ceiling : Universe} {g'' : VersionedEGraph}

theorem refl : Lowered v X ceiling g g :=
  ⟨Local.refl v g, rfl, rfl, rfl, rfl, rfl, fun _ => .inl rfl⟩

theorem trans (h : Lowered v X ceiling g g') (h' : Lowered v X ceiling g' g'') :
    Lowered v X ceiling g g'' where
  toLocal := h.toLocal.trans h'.toLocal
  versions := h'.versions.trans h.versions
  parent_eq := h'.parent_eq.trans h.parent_eq
  domain := h'.domain.trans h.domain
  bound := h'.bound.trans h.bound
  dependents := h'.dependents.trans h.dependents
  currentUniverse x := by
    rcases h.currentUniverse x with e | ⟨hx, e⟩ <;>
      rcases h'.currentUniverse x with e' | ⟨hx', e'⟩ <;> rw [e', e]
    · exact .inl rfl
    · exact .inr ⟨hx', rfl⟩
    · exact .inr ⟨hx, rfl⟩
    · exact .inr ⟨hx, by rw [Nat.min_assoc, Nat.min_self]⟩

theorem mono (h : Lowered v X ceiling g g') (hs : X ⊆ Y) : Lowered v Y ceiling g g' :=
  { h with currentUniverse := fun x => (h.currentUniverse x).imp_right fun hx => ⟨hs hx.1, hx.2⟩ }

theorem le (h : Lowered v X ceiling g g') {x : InferVarIndex} {u : Universe}
    (hx : g.currentUniverse v x ≤ u) : g'.currentUniverse v x ≤ u := by
  rcases h.currentUniverse x with e | ⟨-, e⟩ <;> rw [e]
  · exact hx
  · exact Nat.le_trans (Nat.min_le_left _ _) hx

theorem eq_min (h : Lowered v X ceiling g g') {x : InferVarIndex}
    (hx : g'.currentUniverse v x ≤ ceiling) :
    g'.currentUniverse v x = min (g.currentUniverse v x) ceiling := by
  rcases h.currentUniverse x with e | ⟨-, e⟩
  · rw [← e, Nat.min_eq_left hx]
  · exact e

theorem eq_of_notMem (h : Lowered v X ceiling g g') {x : InferVarIndex} (hx : x ∉ X) :
    g'.currentUniverse v x = g.currentUniverse v x :=
  (h.currentUniverse x).resolve_right fun hm => hx hm.1

theorem find_eq (h : Lowered v X ceiling g g') (hr : Represents g v S) :
    g'.find v = g.find v :=
  find_congr hr.grounded h.parent_eq

/-- Lowering ceilings keeps the resolution. -/
theorem represents (h : Lowered v X ceiling g g') (hr : Represents g v S) :
    Represents g' v { S with restrictions := g'.restrictions v } :=
  hr.of_view (h.wf hr.wf) (h.length ▸ hr.lt) h.parent_eq h.bound h.dependents

theorem lowerUniverse (hg : g.WF) (hv : v < g.states.length) (ceiling : Universe)
    {x : InferVarIndex} (hx : x ∈ X) :
    Lowered v X ceiling g (g.lowerUniverse v x ceiling) ∧
      (g.lowerUniverse v x ceiling).currentUniverse v x ≤ ceiling := by
  have hl := Local.lowerUniverse g v x ceiling
  have hview := view_lowerUniverse hg hv x ceiling
  have hversions : (g.lowerUniverse v x ceiling).versions = g.versions := by
    rw [VersionedEGraph.lowerUniverse]
    split <;> rfl
  by_cases hle : g.currentUniverse v x ≤ ceiling
  · rw [if_pos hle] at hview
    have heq : g.lowerUniverse v x ceiling = g := by
      rw [VersionedEGraph.lowerUniverse, if_pos hle]
    rw [heq]
    exact ⟨refl, hle⟩
  · rw [if_neg hle] at hview
    have hcur : ∀ y, (g.lowerUniverse v x ceiling).currentUniverse v y =
        if y = x then ceiling else g.currentUniverse v y := by
      intro y
      rw [currentUniverse_eq, currentUniverse_eq, hversions, hview]
      by_cases hy : y = x
      · subst hy; simp
      · simp [hy]
    refine ⟨⟨hl, hversions, by rw [hview], by rw [hview], by rw [hview], by rw [hview],
      fun y => ?_⟩, ?_⟩
    · rw [hcur]
      split
      · rename_i hy
        subst hy
        exact .inr ⟨hx, (Nat.min_eq_right (Nat.le_of_not_le hle)).symm⟩
      · exact .inl rfl
    · rw [hcur, if_pos rfl]

end Lowered

section MakeAccessible

variable {outerVariable : InferVarIndex} {ceiling : Universe} {X Y : Set InferVarIndex}
  {leak leak' : Prop} {before after : List Ty} {r : Except UnifyError Unit}

/-- What a traversal owes: it lowers variables of `X` only, and either has explored the types
`ts`, every variable of which is low enough then, or has met a leak. -/
structure Accessed (v : Version) (ceiling : Universe) (X : Set InferVarIndex) (leak : Prop)
    (ts : List Ty) (before : List Ty) (g : VersionedEGraph) (r : Except UnifyError Unit)
    (after : List Ty) (g' : VersionedEGraph) : Prop where
  lowered : Lowered v X ceiling g g'
  ok : r = .ok () → Explored (g.find v) (Skeleton.Below g.placeholderUniverse ceiling)
    (fun x => g'.currentUniverse v x ≤ ceiling) before after ∧ ∀ t ∈ ts, g.find v t ∈ after
  error : ∀ e, r = .error e → leak

theorem Accessed.mono {ts : List Ty} (h : Accessed v ceiling X leak ts before g r after g')
    (hX : X ⊆ Y) (hleak : leak → leak') : Accessed v ceiling Y leak' ts before g r after g' :=
  ⟨h.lowered.mono hX, h.ok, fun e he => hleak (h.error e he)⟩

/-- The traversal of the children, one after the other. -/
theorem accessed_forEach {recurse : Ty → List Ty × VersionedEGraph →
      Outcome UnifyError (List Ty × VersionedEGraph) Unit} {cs : List Ty}
    (hf : ∀ c ∈ cs, ∀ g Γ before r after g', Represents g v { S with restrictions := Γ } →
      g.placeholderUniverse = U → recurse c (before, g) = some (r, (after, g')) →
      Accessed v ceiling X leak [c] before g r after g')
    {Γ : Restrictions} (h : Represents g v { S with restrictions := Γ })
    (hU : g.placeholderUniverse = U)
    (hrun : forEach recurse cs (before, g) = some (r, (after, g'))) :
    Accessed v ceiling X leak cs before g r after g' := by
  induction cs generalizing g Γ before with
  | nil =>
      simp only [forEach, Option.some.injEq, Prod.mk.injEq] at hrun
      obtain ⟨rfl, rfl, rfl⟩ := hrun
      exact ⟨.refl, fun _ => ⟨.refl, by simp⟩, by simp⟩
  | cons c cs ih =>
      have hf' := fun d hd => hf d (List.mem_cons_of_mem _ hd)
      rw [forEach] at hrun
      cases r with
      | error e =>
          rcases andThen_eq_error.mp hrun with hc | ⟨_, ⟨middle, g₁⟩, hc, hrest⟩
          · obtain ⟨hl, -, herr⟩ := hf c List.mem_cons_self g Γ _ _ _ _ h hU hc
            exact ⟨hl, by simp, herr⟩
          · have ha := hf c List.mem_cons_self g Γ _ _ _ _ h hU hc
            have h₁ := ha.lowered.represents h
            obtain ⟨hl, -, herr⟩ := ih hf' h₁ (ha.lowered.placeholderUniverse_eq.trans hU) hrest
            exact ⟨ha.lowered.trans hl, by simp, herr⟩
      | ok u =>
          obtain ⟨_, ⟨middle, g₁⟩, hc, hrest⟩ := andThen_eq_ok.mp hrun
          have ha := hf c List.mem_cons_self g Γ _ _ _ _ h hU hc
          have h₁ := ha.lowered.represents h
          obtain ⟨hl, hok, -⟩ := ih hf' h₁ (ha.lowered.placeholderUniverse_eq.trans hU) hrest
          obtain ⟨hex, hcm⟩ := ha.ok rfl
          obtain ⟨hex', hcs⟩ := hok rfl
          rw [ha.lowered.find_eq h, ha.lowered.placeholderUniverse_eq] at hex'
          rw [ha.lowered.find_eq h] at hcs
          refine ⟨ha.lowered.trans hl, fun _ => ⟨?_, fun d hd => ?_⟩, by simp⟩
          · exact (hex.mono fun x hx => hl.le hx).trans hex'
          · rcases List.mem_cons.mp hd with rfl | hd
            · exact hex'.subset (hcm d List.mem_cons_self)
            · exact hcs d hd

/-- The traversal of a representative that is a variable: it is lowered, and its bound leads
back to it. -/
theorem accessHead_var {recurse : Ty → List Ty × VersionedEGraph →
      Outcome UnifyError (List Ty × VersionedEGraph) Unit} (h : Represents g v S)
    {x : InferVarIndex} (hx : S.Unresolved x) (hxX : x ∈ X)
    (hf : ∀ c g before r after g', Represents g v { S with restrictions := g.restrictions v } →
      g.find v c = .inferVar x → c.subst S.resolve = .inferVar x →
      recurse c (before, g) = some (r, (after, g')) →
      Accessed v ceiling X leak [c] before g r after g')
    (hrun : accessHead v outerVariable ceiling recurse (.inferVar x) (.inferVar x :: before, g) =
      some (r, (after, g'))) :
    Accessed v ceiling X leak [.inferVar x] before g r after g' := by
  obtain ⟨hlow, hle⟩ := Lowered.lowerUniverse h.wf h.lt ceiling hxX
  have h₁ := hlow.represents h
  have hroot : g.find v (.inferVar x) = .inferVar x :=
    h.find_eq_inferVar.mpr ((Ty.subst_inferVar _ _).trans hx)
  have hdone : ∀ {g' : VersionedEGraph} {Y : Set InferVarIndex},
      Lowered v Y ceiling (g.lowerUniverse v x ceiling) g' → ∀ visited,
      Done (g.find v) (Skeleton.Below g.placeholderUniverse ceiling)
        (fun x => g'.currentUniverse v x ≤ ceiling) visited (.inferVar x) :=
    fun hl visited => ⟨fun y hy => Ty.inferVar.inj hy ▸ hl.le hle, fun hr => hr.elim,
      fun hr => hr.elim⟩
  simp only [accessHead] at hrun
  split at hrun
  · rename_i b hb
    have hbx : b.subst S.resolve = .inferVar x := (h₁.bound x b hb).trans hx
    have ha := hf b _ _ _ _ _ h₁ (h₁.find_eq_inferVar.mpr hbx) hbx hrun
    refine ⟨hlow.trans ha.lowered, fun hr => ?_, ha.error⟩
    have hex := (ha.ok hr).1
    rw [hlow.find_eq h, hlow.placeholderUniverse_eq] at hex
    refine ⟨hex.visit (hdone ha.lowered _), fun t ht => ?_⟩
    obtain rfl := List.mem_singleton.mp ht
    rw [hroot]
    exact hex.subset List.mem_cons_self
  · simp only [Option.some.injEq, Prod.mk.injEq] at hrun
    obtain ⟨rfl, rfl, rfl⟩ := hrun
    refine ⟨hlow, fun _ => ⟨Explored.refl.visit (hdone (Lowered.refl (X := X)) _), ?_⟩, by simp⟩
    intro t ht
    obtain rfl := List.mem_singleton.mp ht
    rw [hroot]
    exact List.mem_cons_self

/-- A rigid head is looked at for its placeholder only. -/
theorem accessHead_eq (v : Version) (outerVariable : InferVarIndex) (ceiling : Universe)
    (recurse : Ty → List Ty × VersionedEGraph →
      Outcome UnifyError (List Ty × VersionedEGraph) Unit) {root : Ty} (hr : root.Rigid)
    (visited : List Ty) (g : VersionedEGraph) :
    accessHead v outerVariable ceiling recurse root (visited, g) =
      match headPlaceholder root with
      | some param =>
          if ceiling < g.placeholderUniverse param then
            some (.error (.universeLeak outerVariable ceiling), (visited, g))
          else some (.ok (), (visited, g))
      | none => some (.ok (), (visited, g)) := by
  cases root <;> first | rfl | exact hr.elim

/-- The head of a rigid representative: nothing is written, and a placeholder is compared. -/
theorem accessHead_rigid (v : Version) (outerVariable : InferVarIndex) (ceiling : Universe)
    (recurse : Ty → List Ty × VersionedEGraph →
      Outcome UnifyError (List Ty × VersionedEGraph) Unit) {root : Ty} (hr : root.Rigid)
    (visited : List Ty) (g : VersionedEGraph) :
    (Skeleton.Below g.placeholderUniverse ceiling (decompose root).skeleton ∧
      accessHead v outerVariable ceiling recurse root (visited, g) = some (.ok (), (visited, g))) ∨
    (¬ Skeleton.Below g.placeholderUniverse ceiling (decompose root).skeleton ∧
      accessHead v outerVariable ceiling recurse root (visited, g) =
        some (.error (.universeLeak outerVariable ceiling), (visited, g))) := by
  rw [accessHead_eq v outerVariable ceiling recurse hr, headPlaceholder_eq]
  cases hp : (decompose root).skeleton.placeholder with
  | none => exact .inl ⟨fun q hq => by simp [hp] at hq, rfl⟩
  | some param =>
      by_cases hlt : ceiling < g.placeholderUniverse param
      · refine .inr ⟨fun h => Nat.not_lt.mpr (h param hp) hlt, ?_⟩
        simp only [if_pos hlt]
      · refine .inl ⟨fun q hq => ?_, ?_⟩
        · obtain rfl := Option.some.inj (hp.symm.trans hq)
          exact Nat.not_lt.mp hlt
        · simp only [if_neg hlt]

/-- One call of the traversal. -/
theorem makeAccessible_spec (fuel : Nat) : ∀ (t : Ty) (g : VersionedEGraph) (S : Store)
    (before : List Ty) (r : Except UnifyError Unit) (after : List Ty) (g' : VersionedEGraph),
    Represents g v S →
    makeAccessible v outerVariable ceiling fuel t (before, g) = some (r, (after, g')) →
    Accessed v ceiling {x | x ∈ (t.subst S.resolve).vars}
      (¬ (t.subst S.resolve).All (Skeleton.Below g.placeholderUniverse ceiling) fun _ => True)
      [t] before g r after g' := by
  induction fuel with
  | zero => intro t g S before r after g' _ hrun; cases hrun
  | succ fuel ih =>
      intro t g S before r after g' h hrun
      simp only [makeAccessible] at hrun
      split at hrun
      · rename_i hmem
        simp only [Option.some.injEq, Prod.mk.injEq] at hrun
        obtain ⟨rfl, rfl, rfl⟩ := hrun
        exact ⟨.refl, fun _ => ⟨.refl, by simpa using hmem⟩, by simp⟩
      rcases (t.subst S.resolve).rigid_or_var with hr | ⟨x, hx⟩
      · obtain ⟨hs, hc⟩ := h.decompose_find hr
        have hf := h.find_rigid.mpr hr
        have hall := Ty.all_iff (P := Skeleton.Below g.placeholderUniverse ceiling)
          (Q := fun _ => True) hr
        have hvisit := accessHead_rigid v outerVariable ceiling
          (makeAccessible v outerVariable ceiling fuel) hf (g.find v t :: before) g
        rcases hvisit with ⟨hacc, hhead⟩ | ⟨hacc, hhead⟩
        · rw [hhead] at hrun
          suffices hcs : Accessed v ceiling {x | x ∈ (t.subst S.resolve).vars}
              (¬ (t.subst S.resolve).All (Skeleton.Below g.placeholderUniverse ceiling)
                fun _ => True)
              (decompose (g.find v t)).children (g.find v t :: before) g r after g' by
            refine ⟨hcs.lowered, fun he => ?_, hcs.error⟩
            obtain ⟨hex, hmem⟩ := hcs.ok he
            refine ⟨hex.visit ⟨fun x hx => ?_, fun _ => hacc, fun _ => hmem⟩, ?_⟩
            · rw [hx] at hf; exact hf.elim
            · simpa using hex.subset List.mem_cons_self
          refine accessed_forEach (S := S) (Γ := S.restrictions)
            (fun c hcm g₁ Γ before r after g' h₁ hU hrun => ?_) h rfl hrun
          · have hmem : c.subst S.resolve ∈ (decompose (t.subst S.resolve)).children := by
              rw [hc]
              exact List.mem_map_of_mem hcm
            refine (ih c g₁ _ before r after g' h₁ hrun).mono ?_ ?_
            · exact fun x hx => (Ty.mem_vars_iff hr).mpr ⟨_, hmem, hx⟩
            · rw [hU]
              exact mt fun ht => (hall.mp ht).2 _ hmem
        · rw [hhead] at hrun
          simp only [andThen, Option.some.injEq, Prod.mk.injEq] at hrun
          obtain ⟨rfl, rfl, rfl⟩ := hrun
          exact ⟨.refl, by simp, fun _ _ ht => hacc (hs ▸ (hall.mp ht).1)⟩
      · have hf := h.find_eq_inferVar.mpr hx
        have hu := Store.unresolved_of_eq hx
        have hroot : g.find v (.inferVar x) = .inferVar x := hf ▸ find_find h.grounded t
        rw [hf] at hrun
        replace hrun := andThen_pure.symm.trans hrun
        have hx' : x ∈ {y | y ∈ (t.subst S.resolve).vars} := by simp [hx]
        suffices ha : Accessed v ceiling {x | x ∈ (t.subst S.resolve).vars}
            (¬ (t.subst S.resolve).All (Skeleton.Below g.placeholderUniverse ceiling)
              fun _ => True) [.inferVar x] before g r after g' by
          refine ⟨ha.lowered, fun he => ?_, ha.error⟩
          obtain ⟨hex, hmem⟩ := ha.ok he
          refine ⟨hex, ?_⟩
          rw [List.forall_mem_singleton] at hmem ⊢
          rwa [hf, ← hroot]
        refine accessHead_var h hu hx' (fun c g₁ before r after g' h₁ _ hcx hrun => ?_) hrun
        · refine (ih c g₁ _ before r after g' h₁ hrun).mono ?_ ?_
          · rw [show c.subst _ = _ from hcx, hx]
          · rw [show c.subst _ = _ from hcx]
            exact fun hl => absurd (Ty.all_inferVar.mpr trivial) hl

/-- A traversal of a whole type lowers exactly its variables. -/
theorem makeAccessible_ok (h : Represents g v S) {fuel : Nat} {t : Ty}
    (hrun : makeAccessible v outerVariable ceiling fuel t ([], g) = some (.ok (), (after, g'))) :
    Lowered v {x | x ∈ (t.subst S.resolve).vars} ceiling g g' ∧
      (t.subst S.resolve).All (Skeleton.Below g.placeholderUniverse ceiling) (fun _ => True) ∧
      ∀ x ∈ (t.subst S.resolve).vars,
        g'.currentUniverse v x = min (g.currentUniverse v x) ceiling := by
  obtain ⟨hl, hok, -⟩ := makeAccessible_spec fuel t g S [] _ after g' h hrun
  obtain ⟨hex, hmem⟩ := hok rfl
  have hall := h.all_of_explored hex (hmem t List.mem_cons_self)
  exact ⟨hl, hall.imp (fun _ => id) fun _ _ _ => trivial, fun x hx => hl.eq_min (hall.of_mem x hx)⟩

theorem makeAccessible_error (h : Represents g v S) {fuel : Nat} {t : Ty} {e : UnifyError}
    (hrun : makeAccessible v outerVariable ceiling fuel t ([], g) = some (.error e, (after, g'))) :
    ¬ (t.subst S.resolve).All (Skeleton.Below g.placeholderUniverse ceiling) fun _ => True :=
  (makeAccessible_spec fuel t g S [] _ after g' h hrun).error e rfl

theorem makeAccessible_ne_none (fuel : Nat) : ∀ (t : Ty) (g : VersionedEGraph) (S : Store)
    (before : List Ty), Represents g v S →
    (t.subst S.resolve).term.size < fuel →
      makeAccessible v outerVariable ceiling fuel t (before, g) ≠ none := by
  induction fuel with
  | zero => intro t g S before _ hlt; exact absurd hlt (Nat.not_lt_zero _)
  | succ fuel ih =>
      intro t g S before h hlt
      simp only [makeAccessible]
      split
      · simp
      rcases (t.subst S.resolve).rigid_or_var with hr | ⟨x, hx⟩
      · obtain ⟨hs, hc⟩ := h.decompose_find hr
        have hf := h.find_rigid.mpr hr
        have hvisit := accessHead_rigid v outerVariable ceiling
          (makeAccessible v outerVariable ceiling fuel) hf (g.find v t :: before) g
        rcases hvisit with ⟨-, hhead⟩ | ⟨-, hhead⟩ <;> rw [hhead]
        · refine forEach_ne_none (I := fun s => ∃ Γ, Represents s.2 v { S with restrictions := Γ })
            (fun c hcm s hs => ?_) ⟨S.restrictions, h⟩
          obtain ⟨Γ, hs⟩ := hs
          have hmem : c.subst S.resolve ∈ (decompose (t.subst S.resolve)).children := by
            rw [hc]
            exact List.mem_map_of_mem hcm
          have hlt' := Nat.lt_of_lt_of_le (Ty.size_child_lt hmem) (Nat.le_of_lt_succ hlt)
          refine ⟨ih c s.2 _ s.1 hs hlt', fun r t hrun =>
            ⟨t.2.restrictions v, ?_⟩⟩
          have ha := makeAccessible_spec fuel c s.2 _ s.1 r t.1 t.2 hs hrun
          have ht := ha.lowered.represents hs
          exact ht
        · simp [andThen]
      · have hf := h.find_eq_inferVar.mpr hx
        have hu := Store.unresolved_of_eq hx
        obtain ⟨hlow, -⟩ := Lowered.lowerUniverse (X := {x}) h.wf h.lt ceiling rfl
        have h₁ := hlow.represents h
        obtain ⟨fuel, rfl⟩ : ∃ k, fuel = k + 1 := by
          have : (Ty.inferVar x).term.size = 1 := by simp
          rw [hx, this] at hlt
          exact ⟨fuel - 1, by omega⟩
        rw [hf]
        refine andThen_ne_none ?_ fun _ _ _ => by simp [decompose, leaf, forEach]
        simp only [accessHead]
        split
        · rename_i b hb
          -- the bound of the variable leads back to the variable, which is visited
          simp [makeAccessible, h₁.find_bound hb hu]
        · simp

end MakeAccessible

end VersionedEGraph

end Sage
