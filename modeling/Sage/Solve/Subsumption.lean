import Sage.Solve.Definite

/-!
# Solve — subsumption is sound

When `subsumes` says that one definite answer covers another, the covered one should be an
instance of it.  The assignment that matching found is that instance, read back in the names of
the two answers.  Its types respect domains, and ceilings where they name type parameters; an
array length is not looked at, so a const parameter newer than the ceiling gets through.

* `exists_instanceBy`, `DefiniteAnswer.InstanceBy.solution` — the instance, and that it loses no
  solution.
* `subsumes_sound_iff` — subsumption is sound exactly for the queries whose const inputs are all
  in the oldest universe.
-/

namespace Sage

section Compare

variable {inputUniverses : ParamUniverses} (inputDomains : ParamDomains)
  (c a : DefiniteAnswer inputUniverses)

/-- The number from which the consequent is renamed, after the antecedent. -/
abbrev secondName : Nat := a.next (firstFreeParam inputUniverses)

/-- The variables of the consequent, renamed. -/
def flexibleParams : List AlphaEquivParam :=
  (renamedVars c.boundVars (secondName a)).map Prod.snd

def matchUniverses : ParamUniverses :=
  (c.apart (secondName a)).parameterUniverses ++
    (a.apart (firstFreeParam inputUniverses)).parameterUniverses ++ inputUniverses

def matchDomains : ParamDomains :=
  (c.apart (secondName a)).parameterDomains ++
    (a.apart (firstFreeParam inputUniverses)).parameterDomains ++ inputDomains

/-- The type parameters of the renamed antecedent. -/
def Known (p : AlphaEquivParam) : Prop :=
  p ∈ inputUniverses.map Prod.fst ∨
    p ∈ (renamedVars a.boundVars (firstFreeParam inputUniverses)).map Prod.snd

variable {c a} {p : AlphaEquivParam}

theorem Known.index_lt (h : Known a p) :
    p.index < firstFreeParam inputUniverses + a.boundVars.length := by
  rcases h with h | h
  · exact Nat.lt_of_lt_of_le (le_firstFreeParam h) (Nat.le_add_right ..)
  · obtain ⟨v, hv, rfl⟩ := List.mem_map.mp h
    exact (index_renamedVars hv).2

theorem Known.notMem_flexible (h : Known a p) : p ∉ flexibleParams c a := by
  intro hp
  obtain ⟨v, hv, rfl⟩ := List.mem_map.mp hp
  refine absurd (index_renamedVars hv).1 (Nat.not_le.mpr ?_)
  exact Nat.lt_of_lt_of_le h.index_lt (Nat.le_add_right ..)

/-- A parameter of the renamed antecedent is a parameter of the antecedent under its new name. -/
theorem Known.old (h : Known a p) : ∃ q, Visible inputUniverses a.boundVars q ∧
    restored a.boundVars (firstFreeParam inputUniverses) p = q.ty ∧
    (matchUniverses c a).lookup p = a.universes.lookup q ∧
    (matchDomains inputDomains c a).lookup p = (a.domains inputDomains).lookup q := by
  have hflexible : p ∉ (renamedVars c.boundVars (secondName a)).map Prod.snd :=
    h.notMem_flexible
  have huniverse : (matchUniverses c a).lookup p =
      ((a.apart (firstFreeParam inputUniverses)).parameterUniverses ++ inputUniverses).lookup p := by
    rw [matchUniverses, List.append_assoc, List.lookup_append, DefiniteAnswer.apart,
      lookup_renamedVars_of_notMem _ hflexible, Option.none_or]
  have hdomain : (matchDomains inputDomains c a).lookup p =
      ((a.apart (firstFreeParam inputUniverses)).parameterDomains ++ inputDomains).lookup p := by
    rw [matchDomains, List.append_assoc, List.lookup_append, DefiniteAnswer.apart,
      lookup_renamedVars_of_notMem _ hflexible, Option.none_or]
  by_cases hp : p ∈ (renamedVars a.boundVars (firstFreeParam inputUniverses)).map Prod.snd
  · obtain ⟨v, hv, rfl⟩ := List.mem_map.mp hp
    have hbound : v.1 ∈ a.boundVars := by
      have hm := List.mem_map_of_mem (f := Prod.fst) hv
      rwa [renamedVars_fst] at hm
    refine ⟨v.1.param, .inr (List.mem_map_of_mem hbound), restored_of_mem hv, ?_, ?_⟩
    · rw [huniverse, List.lookup_append, DefiniteAnswer.apart, lookup_renamedVars _ hv,
        Option.some_or, DefiniteAnswer.universes, lookup_boundVars a.nodup _ _ hbound]
    · rw [hdomain, List.lookup_append, DefiniteAnswer.apart, lookup_renamedVars _ hv,
        Option.some_or, DefiniteAnswer.domains, lookup_boundVars a.nodup _ _ hbound]
  · have hinput := h.resolve_right hp
    have hfresh : p ∉ a.boundVars.map ResponseVarInfo.param := fun hm => by
      obtain ⟨info, hi, rfl⟩ := List.mem_map.mp hm
      exact a.fresh info hi hinput
    refine ⟨p, .inl hinput, restored_of_notMem hp, ?_, ?_⟩
    · rw [huniverse, List.lookup_append, DefiniteAnswer.apart, lookup_renamedVars_of_notMem _ hp,
        Option.none_or, DefiniteAnswer.universes, lookup_input _ _ hfresh]
    · rw [hdomain, List.lookup_append, DefiniteAnswer.apart, lookup_renamedVars_of_notMem _ hp,
        Option.none_or, DefiniteAnswer.domains, lookup_input _ _ hfresh]

/-- The types of the renamed antecedent. -/
theorem Known.of_over {t : Ty}
    (h : t.Over (Visible inputUniverses a.boundVars) (ConstInput inputUniverses)) :
    (t.instantiate (renamed a.boundVars (firstFreeParam inputUniverses))).Over (Known a)
      (ConstInput inputUniverses) := by
  refine h.instantiate fun p hp => ?_
  by_cases hb : p ∈ a.boundVars.map ResponseVarInfo.param
  · obtain ⟨info, hi, rfl⟩ := List.mem_map.mp hb
    obtain ⟨q, hq⟩ := exists_renamedVars (n := firstFreeParam inputUniverses) hi
    rw [renamed_of_mem a.nodup hq]
    exact Ty.over_param.mpr (.inr (List.mem_map_of_mem hq))
  · rw [renamed_of_notMem hb]
    exact Ty.over_param.mpr (.inl (hp.resolve_right hb))

theorem known_output (t : Ty)
    (ht : (a.apart (firstFreeParam inputUniverses)).output = .type t) :
    t.Over (Known a) (ConstInput inputUniverses) := by
  rw [DefiniteAnswer.apart] at ht
  cases ho : a.output with
  | proven =>
      rw [ho] at ht
      cases ht
  | type u =>
      rw [ho] at ht
      obtain rfl := GoalOutput.type.inj ht
      exact Known.of_over (a.output_over u ho)

theorem known_substitution (e : SubstEntry)
    (he : e ∈ (a.apart (firstFreeParam inputUniverses)).substitution) :
    e.value.Over (Known a) (ConstInput inputUniverses) := by
  obtain ⟨e₀, he₀, rfl⟩ := List.mem_map.mp he
  exact Known.of_over (a.substitution_over e₀ he₀)

theorem forall₂_exists_left {α β : Type} {R : α → β → Prop} {l : List α} {l' : List β}
    (h : List.Forall₂ R l l') (y : β) (hy : y ∈ l') : ∃ x ∈ l, R x y := by
  induction h with
  | nil => exact absurd hy List.not_mem_nil
  | cons hR _ ih =>
      rcases List.mem_cons.mp hy with rfl | hy
      · exact ⟨_, List.mem_cons_self, hR⟩
      · obtain ⟨x, hx, hR⟩ := ih hy
        exact ⟨x, List.mem_cons_of_mem _ hx, hR⟩

theorem forall₂_exists_right {α β : Type} {R : α → β → Prop} {l : List α} {l' : List β}
    (h : List.Forall₂ R l l') (x : α) (hx : x ∈ l) : ∃ y ∈ l', R x y :=
  forall₂_exists_left h.flip x hx

/-- A residual goal of the renamed answer is the copy of one. -/
theorem exists_copied {r : DefiniteAnswer inputUniverses} {n : Nat} {k : Goal}
    (hk : k ∈ (r.apart n).modulo.conjuncts) : ∃ g ∈ r.modulo.conjuncts,
      IrCopier.CopyOf (renamingOf (renamedVars r.boundVars n)) (n + r.boundVars.length)
        (r.next n) g k := by
  have hcopied := IrCopier.conjuncts_copied (δ := renamingOf (renamedVars r.boundVars n))
    (n + r.boundVars.length) r.modulo
  exact forall₂_exists_left hcopied k hk

theorem known_modulo {k : Goal}
    (hk : k ∈ (a.apart (firstFreeParam inputUniverses)).modulo.conjuncts) (b : Atom)
    (hb : k = .atom b) : ∀ t ∈ b.types, t.Over (Known a) (ConstInput inputUniverses) := by
  obtain ⟨g, hg, hcopy⟩ := exists_copied hk
  rw [hb] at hcopy
  obtain ⟨b₀, rfl, rfl⟩ := hcopy.to_atom
  intro t ht
  rw [Atom.types_mapTy, copyTy_renamingOf] at ht
  obtain ⟨u, hu, rfl⟩ := List.mem_map.mp ht
  exact Known.of_over (a.modulo_over _ hg u hu).of_unbound

/-- What the match of two answers established. -/
theorem exists_bindings (h : subsumes inputUniverses inputDomains c.result a.result = true) :
    ∃ B : Bindings, Matches (flexibleParams c a) (matchUniverses c a)
      (matchDomains inputDomains c a) (Known a) (ConstInput inputUniverses) [] B fun σ =>
        (c.apart (secondName a)).output.instantiate σ =
          (a.apart (firstFreeParam inputUniverses)).output ∧
        (∀ e ∈ (c.apart (secondName a)).substitution,
          ∃ k ∈ (a.apart (firstFreeParam inputUniverses)).substitution,
            k.key = e.key ∧ e.value.instantiate σ = k.value) ∧
        ∀ g ∈ (c.apart (secondName a)).modulo.conjuncts,
          ∃ k ∈ (a.apart (firstFreeParam inputUniverses)).modulo.conjuncts, g.MatchedBy σ k := by
  have hP : ∀ p, Known a p → p ∉ flexibleParams c a := fun p hp => hp.notMem_flexible
  rw [subsumes, a.copyAnswerApart_result, Option.bind_eq_bind, Option.bind_some] at h
  simp only [c.copyAnswerApart_result, Option.bind_eq_bind, Option.bind_some] at h
  obtain ⟨B₃, h⟩ := Option.isSome_iff_exists.mp h
  obtain ⟨B₁, houtput, h⟩ := Option.bind_eq_some_iff.mp h
  obtain ⟨B₂, hsubst, hgoals⟩ := Option.bind_eq_some_iff.mp h
  have hflex : (c.apart (secondName a)).parameterUniverses.map Prod.fst = flexibleParams c a := by
    rw [DefiniteAnswer.apart, List.map_map, flexibleParams]
    rfl
  rw [hflex] at houtput hsubst hgoals
  have m₁ := matchOutput_matches (L := ConstInput inputUniverses) hP known_output houtput
  have m₂ := matchSubstitution_matches (L := ConstInput inputUniverses) hP known_substitution hsubst
  have m₃ := matchGoals_matches (L := ConstInput inputUniverses) hP
    (fun k hk => known_modulo (List.mem_eraseDups.mp hk)) hgoals
  refine ⟨B₃, ((m₁.trans m₂).trans m₃).imp ?_⟩
  rintro σ - ⟨⟨houtput, hsubst⟩, hgoals⟩
  refine ⟨?_, hsubst, fun g hg => ?_⟩
  · rcases houtput with ⟨hc, ha⟩ | ⟨t, u, hc, ha, heq⟩
    · rw [hc, ha]
      rfl
    · rw [hc, ha, GoalOutput.instantiate, heq]
  · obtain ⟨k, hk, hgk⟩ := hgoals g (List.mem_eraseDups.mpr hg)
    exact ⟨k, List.mem_eraseDups.mp hk, hgk⟩

/-! ### The instance -/

/-- A type of the domain, for a variable that matching left open. -/
def InferDomain.sample : InferDomain → Ty
  | .any => .bool
  | .integer => .int .i32
  | .float => .float .f64

variable (c a) in
/-- What the renamed variables of the consequent were matched with. -/
@[grind =] def matched (B : Bindings) (p : AlphaEquivParam) : Ty :=
  if p ∈ flexibleParams c a then
    (B.lookup p).getD (((matchDomains inputDomains c a).lookup p).getD .any).sample
  else p.ty

theorem matched_instance (B : Bindings)
    (hfit : ∀ p t, B.lookup p = some t → p ∈ flexibleParams c a) :
    B.Instance (flexibleParams c a) (matched inputDomains c a B) where
  fixes p hp := if_neg hp
  binds p t hp := by rw [matched, if_pos (hfit p t hp), hp, Option.getD_some]

theorem InferDomain.fits_sample (d : InferDomain) {universes : ParamUniverses}
    {domains : ParamDomains} {P L : AlphaEquivParam → Prop} {p : AlphaEquivParam}
    (hd : (domains.lookup p).getD .any = d) : FitsParameter universes domains P L p d.sample := by
  have hover : ∀ {t : Ty}, t.Inner → (decompose t).children = [] →
      (decompose t).skeleton.Over P L → t.Over P L := fun ht hc hs =>
    (Ty.over_inner ht).mpr ⟨hs, by simp [hc]⟩
  subst hd
  cases hl : (domains.lookup p).getD .any with
  | any =>
      refine ⟨hover trivial rfl trivial, ?_, rfl⟩
      rw [hl]
      rfl
  | integer | float =>
      refine ⟨hover trivial rfl trivial, ?_, rfl⟩
      rw [hl]
      rfl

variable {B : Bindings}

theorem matched_fits (hfit : B.Fit (flexibleParams c a) (matchUniverses c a)
      (matchDomains inputDomains c a) (Known a) (ConstInput inputUniverses))
    (hp : p ∈ flexibleParams c a) :
    FitsParameter (matchUniverses c a) (matchDomains inputDomains c a) (Known a)
      (ConstInput inputUniverses) p (matched inputDomains c a B p) := by
  rw [matched, if_pos hp]
  cases hl : B.lookup p with
  | none => exact InferDomain.fits_sample _ rfl
  | some t => exact (hfit p t hl).2

variable (c a) in
/-- What the variables of the consequent stand for in the antecedent. -/
def assigned (B : Bindings) (p : AlphaEquivParam) : Ty :=
  if p ∈ c.boundVars.map ResponseVarInfo.param then
    ((renamed c.boundVars (secondName a) p).instantiate (matched inputDomains c a B)).instantiate
      (restored a.boundVars (firstFreeParam inputUniverses))
  else p.ty

theorem assigned_visible (hp : Visible inputUniverses c.boundVars p) :
    ((renamed c.boundVars (secondName a) p).instantiate (matched inputDomains c a B)).instantiate
      (restored a.boundVars (firstFreeParam inputUniverses)) = assigned inputDomains c a B p := by
  by_cases hb : p ∈ c.boundVars.map ResponseVarInfo.param
  · rw [assigned, if_pos hb]
  · have hinput := hp.resolve_right hb
    have hknown : Known a p := .inl hinput
    have hnot := @notMem_renamedVars a.boundVars _ p (le_firstFreeParam hinput)
    rw [assigned, if_neg hb, renamed_of_notMem hb, Ty.instantiate_param, matched,
      if_neg hknown.notMem_flexible, Ty.instantiate_param, restored_of_notMem hnot]

/-- A type of the consequent, renamed, matched and read back in the antecedent's names. -/
theorem instantiate_assigned {t : Ty}
    (ht : t.Over (Visible inputUniverses c.boundVars) (ConstInput inputUniverses)) :
    ((t.instantiate (renamed c.boundVars (secondName a))).instantiate
      (matched inputDomains c a B)).instantiate
        (restored a.boundVars (firstFreeParam inputUniverses)) =
      t.instantiate (assigned inputDomains c a B) := by
  rw [Ty.instantiate_instantiate, Ty.instantiate_instantiate]
  refine Ty.instantiate_congr ht fun p hp => ?_
  rw [← Ty.instantiate_instantiate]
  exact assigned_visible inputDomains hp

theorem restored_known {t : Ty}
    (ht : t.Over (Visible inputUniverses a.boundVars) (ConstInput inputUniverses)) :
    (t.instantiate (renamed a.boundVars (firstFreeParam inputUniverses))).instantiate
      (restored a.boundVars (firstFreeParam inputUniverses)) = t := by
  rw [Ty.instantiate_instantiate]
  exact Ty.instantiate_eq_self ht fun p hp => restored_renamed a.nodup (hp.symm.imp_right le_firstFreeParam)

theorem Goal.SameAs.refl (g : Goal) : g.SameAs g := by
  cases g with
  | atom b =>
      cases b with
      | traitImpl t r => rfl
      | equals t u => exact .inl rfl
  | _ => rfl

theorem Goal.SameAs.mapTy {g k : Goal} (h : g.SameAs k) (f : Ty → Ty) :
    (g.mapTy f).SameAs (k.mapTy f) := by
  cases g with
  | atom b =>
      cases b with
      | traitImpl t r => exact congrArg (Goal.mapTy f) h
      | equals t u =>
          rcases h with rfl | rfl
          · exact .inl rfl
          · exact .inr rfl
  | _ => exact (congrArg (Goal.mapTy f) h).trans rfl

/-- Copies with different numbers are equal only when there was nothing to number. -/
theorem unbound_of_equal {g k h : Goal} {δ ε : TypeMapping} {m n e : Nat}
    (hg : IrCopier.CopyOf δ m e g h) (hk : IrCopier.CopyOf ε n m k h) :
    g.binders = [] ∧ k.binders = [] := by
  obtain ⟨i, hi, hile, hgb⟩ := hg.binders
  obtain ⟨j, hj, hjle, hkb⟩ := hk.binders
  rw [hgb] at hkb
  cases hgs : g.binders with
  | nil =>
      rw [hgs] at hkb
      cases hks : k.binders with
      | nil => exact ⟨rfl, rfl⟩
      | cons q qs =>
          rw [hks] at hkb
          cases hkb
  | cons p ps =>
      rw [hgs] at hkb
      cases hks : k.binders with
      | nil =>
          rw [hks] at hkb
          cases hkb
      | cons q qs =>
          -- the first binder would be numbered from both ranges
          rw [hks, Canonicalizer.targets, Canonicalizer.targets, List.cons.injEq] at hkb
          have hij : i = j := congrArg AlphaEquivParam.index (GenericParam.alphaEquiv.inj hkb.1)
          rw [hks, List.length_cons] at hjle
          omega

/-- A matched residual goal has no binders, and becomes the known one. -/
theorem matched_copies {g g' k k' : Goal}
    (hB : B.Instance (flexibleParams c a) (matched inputDomains c a B))
    (hcopy : IrCopier.CopyOf (renamingOf (renamedVars c.boundVars (secondName a)))
      (secondName a + c.boundVars.length) (c.next (secondName a)) g g')
    (hk : k ∈ a.modulo.conjuncts)
    (hcopy' : IrCopier.CopyOf (renamingOf (renamedVars a.boundVars (firstFreeParam inputUniverses)))
      (firstFreeParam inputUniverses + a.boundVars.length) (secondName a) k k')
    (hmatched : g'.MatchedBy (matched inputDomains c a B) k') :
    g.binders = [] ∧ k.binders = [] ∧
      (g'.mapTy (Ty.instantiate (matched inputDomains c a B))).SameAs k' := by
  have hcompound : k' = g' → g.binders = [] ∧ k.binders = [] ∧
      (g'.mapTy (Ty.instantiate (matched inputDomains c a B))).SameAs k' := by
    rintro rfl
    obtain ⟨hgb, hkb⟩ := unbound_of_equal hcopy
      (hcopy'.mono (Nat.le_refl _) (Nat.le_add_right _ c.boundVars.length))
    refine ⟨hgb, hkb, ?_⟩
    -- the known goal names no variable of the consequent
    have hfix : k'.mapTy (Ty.instantiate (matched inputDomains c a B)) = k' := by
      rw [hcopy'.of_unbound hkb, copyTy_renamingOf, ← Goal.spliced_mapTy, Goal.mapTy_mapTy]
      refine congrArg Goal.spliced (Goal.mapTy_congr (fun t ht => ?_) k hkb (a.modulo_over k hk))
      exact Ty.instantiate_eq_self (Known.of_over ht.of_unbound) fun p hp =>
        hB.fixes p hp.notMem_flexible
    rw [hfix]
    exact .refl _
  cases g' with
  | atom b =>
      obtain ⟨b₀, rfl, -⟩ := hcopy.to_atom
      have hatom : ∃ b', k' = .atom b' := by
        cases b with
        | traitImpl t r => exact ⟨_, hmatched⟩
        | equals t u => exact hmatched.elim (⟨_, ·⟩) (⟨_, ·⟩)
      obtain ⟨b', rfl⟩ := hatom
      obtain ⟨k₀, rfl, -⟩ := hcopy'.to_atom
      exact ⟨rfl, rfl, hmatched⟩
  | _ => exact hcompound hmatched

/-- A matched residual goal, read back in the antecedent's names. -/
theorem modulo_assigned {g g' k' : Goal}
    (hB : B.Instance (flexibleParams c a) (matched inputDomains c a B))
    (hg : g ∈ c.modulo.conjuncts)
    (hcopy : IrCopier.CopyOf (renamingOf (renamedVars c.boundVars (secondName a)))
      (secondName a + c.boundVars.length) (c.next (secondName a)) g g')
    (hk' : k' ∈ (a.apart (firstFreeParam inputUniverses)).modulo.conjuncts)
    (hmatched : g'.MatchedBy (matched inputDomains c a B) k') :
    ∃ k ∈ a.modulo.conjuncts, g.binders = [] ∧
      (g.mapTy (Ty.instantiate (assigned inputDomains c a B))).spliced.SameAs k.spliced := by
  obtain ⟨k, hk, hcopy'⟩ := exists_copied hk'
  obtain ⟨hgb, hkb, hsame⟩ := matched_copies inputDomains hB hcopy hk hcopy' hmatched
  refine ⟨k, hk, hgb, ?_⟩
  have hrequired : ((g'.mapTy (Ty.instantiate (matched inputDomains c a B))).mapTy
      (Ty.instantiate (restored a.boundVars (firstFreeParam inputUniverses)))) =
        (g.mapTy (Ty.instantiate (assigned inputDomains c a B))).spliced := by
    rw [hcopy.of_unbound hgb, copyTy_renamingOf, ← Goal.spliced_mapTy, ← Goal.spliced_mapTy,
      Goal.mapTy_mapTy, Goal.mapTy_mapTy]
    exact congrArg Goal.spliced (Goal.mapTy_congr
      (fun t ht => instantiate_assigned inputDomains ht.of_unbound) g hgb (c.modulo_over g hg))
  have hknown : k'.mapTy (Ty.instantiate
      (restored a.boundVars (firstFreeParam inputUniverses))) = k.spliced := by
    rw [hcopy'.of_unbound hkb, copyTy_renamingOf, ← Goal.spliced_mapTy, Goal.mapTy_mapTy]
    refine congrArg Goal.spliced ?_
    exact (Goal.mapTy_congr (fun t ht => restored_known ht.of_unbound) k hkb
      (a.modulo_over k hk)).trans k.mapTy_id
  rw [← hrequired, ← hknown]
  exact hsame.mapTy _

/-- A type that fits a renamed variable, read back in the antecedent's names. -/
theorem FitsParameter.restored {t : Ty} {d : InferDomain} {u : Universe}
    (h : FitsParameter (matchUniverses c a) (matchDomains inputDomains c a) (Known a)
      (ConstInput inputUniverses) p t) (hu : (matchUniverses c a).lookup p = some u)
    (hd : (matchDomains inputDomains c a).lookup p = some d) :
    (t.instantiate (restored a.boundVars (firstFreeParam inputUniverses))).Over
        (fun q => Visible inputUniverses a.boundVars q ∧
          ∀ v, a.universes.lookup q = some v → v ≤ u) (ConstInput inputUniverses) ∧
      typeSatisfiesDomain (t.instantiate (restored a.boundVars (firstFreeParam inputUniverses))) d
        (a.domains inputDomains) = true := by
  obtain ⟨hover, hdomain, hceiling⟩ := h
  rw [hu, Option.getD_some] at hceiling
  rw [hd, Option.getD_some] at hdomain
  have hbelow := over_of_not_newer hover hceiling
  refine ⟨hbelow.instantiate fun q hq => ?_, ?_⟩
  · obtain ⟨q', hvisible, hq', huniverse, -⟩ := hq.1.old inputDomains (c := c)
    rw [hq', Ty.over_param]
    exact ⟨hvisible, huniverse ▸ hq.2⟩
  · rcases t.cases_param with ht | ⟨x, rfl⟩ | ⟨q, rfl⟩ | ⟨q, rfl, hq⟩
    · rw [typeSatisfiesDomain_inner ht] at hdomain
      rw [typeSatisfiesDomain_inner (ht.instantiate _), d.admits_instantiate ht, hdomain]
    · exact absurd hover (Ty.not_over_inferVar x)
    · obtain ⟨q', -, hq', -, hlookup⟩ := (Ty.over_param.mp hover).old inputDomains (c := c)
      rw [typeSatisfiesDomain_param, hlookup] at hdomain
      rw [Ty.instantiate_param, hq']
      exact typeSatisfiesDomain_param.mpr hdomain
    · exact absurd hover (Ty.not_over_foreign hq)

theorem lookup_flexible {v : ResponseVarInfo × AlphaEquivParam}
    (hv : v ∈ renamedVars c.boundVars (secondName a)) :
    (matchUniverses c a).lookup v.2 = some v.1.relativeUniverse ∧
      (matchDomains inputDomains c a).lookup v.2 = some v.1.domain := by
  constructor
  · rw [matchUniverses, List.append_assoc, List.lookup_append, DefiniteAnswer.apart,
      lookup_renamedVars _ hv, Option.some_or]
  · rw [matchDomains, List.append_assoc, List.lookup_append, DefiniteAnswer.apart,
      lookup_renamedVars _ hv, Option.some_or]

/-- What a variable of the consequent stands for is in its domain, and its type parameters are
within its ceiling. -/
theorem assigned_fits (hfit : B.Fit (flexibleParams c a) (matchUniverses c a)
      (matchDomains inputDomains c a) (Known a) (ConstInput inputUniverses))
    {info : ResponseVarInfo} (hi : info ∈ c.boundVars) :
    (assigned inputDomains c a B info.param).Over
        (fun q => Visible inputUniverses a.boundVars q ∧
          ∀ v, a.universes.lookup q = some v → v ≤ info.relativeUniverse)
        (ConstInput inputUniverses) ∧
      typeSatisfiesDomain (assigned inputDomains c a B info.param) info.domain
        (a.domains inputDomains) = true := by
  obtain ⟨q, hq⟩ := exists_renamedVars (n := secondName a) hi
  obtain ⟨hu, hd⟩ := lookup_flexible inputDomains hq
  rw [assigned, if_pos (List.mem_map_of_mem hi), renamed_of_mem c.nodup hq, Ty.instantiate_param]
  exact (matched_fits inputDomains hfit (List.mem_map_of_mem hq)).restored inputDomains hu hd

/-- The oldest universe is the only one of const inputs. -/
def ConstInputsOldest (inputUniverses : ParamUniverses) : Prop :=
  ∀ p u, inputUniverses.lookup p = some u → p.kind = .const → u = 0

/-- Of two answers that `subsumes` compares the second is an instance of the first, when no const
input can be newer than a variable. -/
theorem exists_instanceBy (hconst : ConstInputsOldest inputUniverses)
    (h : subsumes inputUniverses inputDomains c.result a.result = true) :
    ∃ σ, c.InstanceBy inputDomains a σ := by
  obtain ⟨B, hB⟩ := exists_bindings inputDomains h
  have hfit := hB.fit fun _ _ => nofun
  have hinst := matched_instance inputDomains B fun p t hp => (hfit p t hp).1
  obtain ⟨houtput, hsubst, hmodulo⟩ := hB.equal _ hinst
  refine ⟨assigned inputDomains c a B, ⟨fun p hp => if_neg hp, fun info hi => ?_,
    fun info hi => ?_, fun info hi => (assigned_fits inputDomains hfit hi).2, ?_, ?_, ?_⟩⟩
  · exact (assigned_fits inputDomains hfit hi).1.imp (fun _ h => h.1) fun _ => id
  · refine (assigned_fits inputDomains hfit hi).1.imp (fun _ h => h.2) fun q hq u hu => ?_
    have hfresh : q ∉ a.boundVars.map ResponseVarInfo.param := fun hm => by
      obtain ⟨j, hj, rfl⟩ := List.mem_map.mp hm
      exact a.fresh j hj hq.1
    rw [DefiniteAnswer.universes, lookup_input _ _ hfresh] at hu
    rw [hconst q u hu hq.2]
    exact Nat.zero_le _
  · rw [DefiniteAnswer.apart, DefiniteAnswer.apart] at houtput
    cases hc : c.output with
    | proven =>
        rw [hc] at houtput
        cases ha : a.output with
        | proven => rfl
        | type u =>
            rw [ha] at houtput
            cases houtput
    | type t =>
        rw [hc] at houtput
        cases ha : a.output with
        | proven =>
            rw [ha] at houtput
            cases houtput
        | type u =>
            rw [ha] at houtput
            have heq := GoalOutput.type.inj houtput
            rw [GoalOutput.instantiate, ← instantiate_assigned inputDomains (c.output_over t hc),
              heq, restored_known (a.output_over u ha)]
  · intro e he
    obtain ⟨k', hk', hkey, heq⟩ := hsubst _ (List.mem_map_of_mem he)
    obtain ⟨k, hk, rfl⟩ := List.mem_map.mp hk'
    refine ⟨k, hk, hkey, ?_⟩
    rw [← instantiate_assigned inputDomains (c.substitution_over e he), heq,
      restored_known (a.substitution_over k hk)]
  · intro g hg
    obtain ⟨g', hg', hcopy⟩ := forall₂_exists_right (IrCopier.conjuncts_copied
      (δ := renamingOf (renamedVars c.boundVars (secondName a)))
      (secondName a + c.boundVars.length) c.modulo) g hg
    obtain ⟨k', hk', hmatched⟩ := hmodulo g' hg'
    exact modulo_assigned inputDomains hinst hg hcopy hk' hmatched

end Compare

/-! ### No solution is lost -/

section Solutions

variable {U : GenericParam → Universe} {u v : Universe} {P L : AlphaEquivParam → Prop}
  {τ : AlphaEquivParam → Ty} {t : Ty}

theorem Ty.GroundBelow.mono (h : t.GroundBelow U u) (huv : u ≤ v) : t.GroundBelow U v :=
  Ty.All.imp h (fun _ hs q hq => (hs q hq).trans huv) fun _ _ => id

theorem Skeleton.Over.below (ht : t.Inner) (h : (decompose t).skeleton.Over P L)
    (hL : ∀ p, L p → U (.alphaEquiv p) ≤ u) : (decompose t).skeleton.Below U u := by
  intro q hq
  rcases t with _ | _ | _ | _ | _ | _ | _ | (_ | _ | _) | _ | _ | _ | ⟨_, _ | q' | _⟩ | _ | _ | _ | _ | _
  case array.param =>
    obtain rfl := Option.some.inj hq
    cases q' with
    | alphaEquiv p => exact hL p h
    | ast _ | ext _ => exact h.elim
  case param | inferVar => exact ht.elim
  all_goals cases hq

/-- Replacing parameters by ground types that name nothing above a universe. -/
theorem Ty.Over.groundBelow (h : t.Over P L) (hP : ∀ p, P p → (τ p).GroundBelow U u)
    (hL : ∀ p, L p → U (.alphaEquiv p) ≤ u) : (t.instantiate τ).GroundBelow U u := by
  induction t using Ty.induction with
  | step t ih =>
      rcases t.cases_param with ht | ⟨x, rfl⟩ | ⟨p, rfl⟩ | ⟨q, rfl, hq⟩
      · obtain ⟨hs, hc⟩ := (Ty.over_inner ht).mp h
        refine (Ty.all_iff (ht.instantiate τ).rigid).mpr ?_
        rw [Ty.decompose_instantiate ht]
        refine ⟨hs.below ht hL, fun c hm => ?_⟩
        obtain ⟨b, hb, rfl⟩ := List.mem_map.mp hm
        exact ih b hb (hc b hb)
      · exact absurd h (Ty.not_over_inferVar x)
      · rw [Ty.instantiate_param]
        exact hP p (Ty.over_param.mp h)
      · exact absurd h (Ty.not_over_foreign hq)

theorem InferDomain.admits_of_absorbed {x y : InferDomain} (h : x.intersect y = some x)
    (ht : x.admits t = true) : y.admits t = true := by
  cases x <;> cases y <;> first | rfl | exact ht | cases h

/-- A type that satisfies a domain keeps to it when its parameters are given types of theirs. -/
theorem admits_of_satisfies {d : InferDomain} {domains : ParamDomains} (h : t.Over P L)
    (hd : typeSatisfiesDomain t d domains = true)
    (hP : ∀ p, P p → ((domains.lookup p).getD .any).admits (τ p) = true) :
    d.admits (t.instantiate τ) = true := by
  rcases t.cases_param with ht | ⟨x, rfl⟩ | ⟨p, rfl⟩ | ⟨q, rfl, hq⟩
  · rwa [d.admits_instantiate ht, ← typeSatisfiesDomain_inner ht d domains]
  · exact absurd h (Ty.not_over_inferVar x)
  · rw [Ty.instantiate_param]
    exact InferDomain.admits_of_absorbed (typeSatisfiesDomain_param.mp hd)
      (hP p (Ty.over_param.mp h))
  · exact absurd h (Ty.not_over_foreign hq)

theorem RespectsEquality.of_sameAs {Holds : Goal → Prop} (hH : RespectsEquality Holds) {g k : Goal}
    (h : g.SameAs k) (hk : Holds k) : Holds g := by
  cases g with
  | atom b =>
      cases b with
      | traitImpl t r => exact h ▸ hk
      | equals l r =>
          rcases h with rfl | rfl
          · exact hk
          · exact hH r l hk
  | _ => exact h ▸ hk

variable {inputUniverses : ParamUniverses} {inputDomains : ParamDomains}
  {c a : DefiniteAnswer inputUniverses} {θ : AlphaEquivParam → Ty}

/-- The types that a solution of an answer gives to what it may mention are within their universes
and domains. -/
theorem visible_types (hθ : InputTypes inputUniverses inputDomains U θ)
    (hτ : ∀ p, p ∉ a.boundVars.map ResponseVarInfo.param → τ p = θ p)
    (hvars : ∀ info ∈ a.boundVars, (τ info.param).GroundBelow U info.relativeUniverse ∧
      info.domain.admits (τ info.param) = true) {p : AlphaEquivParam}
    (hp : Visible inputUniverses a.boundVars p) :
    (∃ v, a.universes.lookup p = some v ∧ (τ p).GroundBelow U v) ∧
      (((a.domains inputDomains).lookup p).getD .any).admits (τ p) = true := by
  by_cases hb : p ∈ a.boundVars.map ResponseVarInfo.param
  · obtain ⟨info, hi, rfl⟩ := List.mem_map.mp hb
    refine ⟨⟨_, lookup_boundVars a.nodup _ _ hi, (hvars info hi).1⟩, ?_⟩
    rw [DefiniteAnswer.domains, lookup_boundVars a.nodup _ _ hi]
    exact (hvars info hi).2
  · have hinput := hp.resolve_right hb
    obtain ⟨v, hv⟩ : ∃ v, inputUniverses.lookup p = some v := by
      refine Option.isSome_iff_exists.mp (Option.isSome_iff_ne_none.mpr fun hn => ?_)
      obtain ⟨⟨q, w⟩, hm, rfl⟩ := List.mem_map.mp hinput
      exact absurd (List.lookup_eq_none_iff.mp hn _ hm) (by simp)
    rw [hτ p hb]
    refine ⟨⟨v, ?_, hθ.ceiling p v hv⟩, ?_⟩
    · rw [DefiniteAnswer.universes, lookup_input _ _ hb, hv]
    · rw [DefiniteAnswer.domains, lookup_input _ _ hb]
      exact hθ.domain p hinput

/-- The types that the variables of an answer get from those of an instance of it. -/
def DefiniteAnswer.solved (c : DefiniteAnswer inputUniverses) (σ τ θ : AlphaEquivParam → Ty)
    (p : AlphaEquivParam) : Ty :=
  if p ∈ c.boundVars.map ResponseVarInfo.param then (σ p).instantiate τ else θ p

theorem instantiate_solved {σ : AlphaEquivParam → Ty} (h : c.InstanceBy inputDomains a σ)
    (hτ : ∀ p, p ∉ a.boundVars.map ResponseVarInfo.param → τ p = θ p)
    (ht : t.Over (Visible inputUniverses c.boundVars) (ConstInput inputUniverses)) :
    t.instantiate (c.solved σ τ θ) = (t.instantiate σ).instantiate τ := by
  rw [Ty.instantiate_instantiate]
  refine Ty.instantiate_congr ht fun p hp => ?_
  rw [DefiniteAnswer.solved]
  split
  · rfl
  · rename_i hb
    have hfresh : p ∉ a.boundVars.map ResponseVarInfo.param := fun hm => by
      obtain ⟨info, hi, rfl⟩ := List.mem_map.mp hm
      exact a.fresh info hi (hp.resolve_right hb)
    rw [h.fixes p hb, Ty.instantiate_param, hτ p hfresh]

/-- What an instance of an answer says, the answer says. -/
theorem DefiniteAnswer.InstanceBy.solution {σ : AlphaEquivParam → Ty} {out : GoalOutput}
    {Holds : Goal → Prop} (h : c.InstanceBy inputDomains a σ) (hH : RespectsEquality Holds)
    (hθ : InputTypes inputUniverses inputDomains U θ) (ha : a.Solution U Holds θ out) :
    c.Solution U Holds θ out := by
  obtain ⟨τ, hτ, hvars, hout, hsubst, hgoals⟩ := ha
  refine ⟨c.solved σ τ θ, fun p hp => if_neg hp, fun info hi => ?_, ?_, fun e he => ?_,
    fun g hg => ?_⟩
  · rw [solved, if_pos (List.mem_map_of_mem hi)]
    constructor
    · refine ((h.builtOver info hi).and (h.ceiling info hi)).groundBelow (fun p hp => ?_) fun p hp => ?_
      · obtain ⟨⟨v, hv, hbelow⟩, -⟩ := visible_types hθ hτ hvars hp.1
        exact hbelow.mono (hp.2 v hv)
      · obtain ⟨⟨v, hv, -⟩, -⟩ := visible_types hθ hτ hvars (.inl hp.1.1)
        have hfresh : p ∉ a.boundVars.map ResponseVarInfo.param := fun hm => by
          obtain ⟨j, hj, rfl⟩ := List.mem_map.mp hm
          exact a.fresh j hj hp.1.1
        refine (hθ.length p v ?_).trans (hp.2 v hv)
        rwa [universes, lookup_input _ _ hfresh] at hv
    · exact admits_of_satisfies (h.builtOver info hi) (h.domain info hi) fun p hp =>
        (visible_types hθ hτ hvars hp).2
  · rw [← hout, ← h.output]
    cases ho : c.output with
    | proven => rfl
    | type t => exact congrArg GoalOutput.type (instantiate_solved h hτ (c.output_over t ho))
  · obtain ⟨k, hk, hkey, heq⟩ := h.substitution e he
    rw [← hkey, hsubst k hk, ← heq, instantiate_solved h hτ (c.substitution_over e he)]
  · obtain ⟨k, hk, hb, hsame⟩ := h.modulo g hg
    have hkeep : (g.mapTy (Ty.instantiate (c.solved σ τ θ))).spliced =
        (g.mapTy (Ty.instantiate σ)).spliced.mapTy (Ty.instantiate τ) := by
      rw [← Goal.spliced_mapTy, Goal.mapTy_mapTy]
      exact congrArg Goal.spliced (Goal.mapTy_congr
        (fun t ht => instantiate_solved h hτ ht.of_unbound) g hb (c.modulo_over g hg))
    have hheld := hgoals k hk
    rw [Goal.spliced_mapTy] at hheld
    rw [hkeep]
    exact hH.of_sameAs (hsame.mapTy _) hheld

end Solutions

/-! ### Array lengths -/

section Lengths

variable (inputUniverses : ParamUniverses) (inputDomains : ParamDomains)

/-- A parameter that is no input. -/
abbrev spareParam : AlphaEquivParam := ⟨.type, firstFreeParam inputUniverses⟩

/-- The answer that the output may be any type of the oldest universe. -/
def openAnswer : DefiniteAnswer inputUniverses where
  boundVars := [⟨spareParam inputUniverses, .type, 0, .any⟩]
  output := .type (spareParam inputUniverses).ty
  substitution := []
  modulo := .all []
  nodup := List.nodup_singleton _
  fresh := by
    rintro info hi hp
    obtain rfl := List.mem_singleton.mp hi
    exact absurd (le_firstFreeParam hp) (Nat.lt_irrefl _)
  output_over t ht := by
    rw [← GoalOutput.type.inj ht, Ty.over_param]
    exact .inr List.mem_cons_self
  substitution_over := nofun
  modulo_over := nofun

variable {inputUniverses} {p : AlphaEquivParam}

/-- The answer that the output is an array whose length is a const input. -/
def arrayAnswer (hp : ConstInput inputUniverses p) : DefiniteAnswer inputUniverses where
  boundVars := []
  output := .type (.array .bool (.param (.alphaEquiv p)))
  substitution := []
  modulo := .all []
  nodup := List.nodup_nil
  fresh := nofun
  output_over t ht := by
    rw [← GoalOutput.type.inj ht, Ty.over_inner (by trivial)]
    refine ⟨hp, fun b hb => ?_⟩
    obtain rfl := List.mem_singleton.mp hb
    exact (Ty.over_inner (by trivial)).mpr ⟨trivial, nofun⟩
  substitution_over := nofun
  modulo_over := nofun

/-- A variable of any type is matched with an array whatever its length is. -/
theorem directionalMatchTy_array {flexible : List AlphaEquivParam} {universes : ParamUniverses}
    {domains : ParamDomains} {q : AlphaEquivParam} {n : Const} (hq : q ∈ flexible)
    (hd : domains.lookup q = some .any) :
    directionalMatchTy flexible universes domains q.ty (.array .bool n) [] =
      some [(q, .array .bool n)] := by
  have hterm : q.ty.term = .node (.param (.alphaEquiv q)) [] := Ty.term_eq trivial
  have hflex : flexibleParameter flexible (.param (.alphaEquiv q)) = some q := if_pos hq
  have hne : (Ty.array .bool n).term ≠ .node (.param (.alphaEquiv q)) [] := fun h =>
    nomatch Ty.term_injective (h.trans hterm.symm)
  have hceiling : ∀ u, containsNewerParameter (.array .bool n) u universes = false := fun u => rfl
  rw [directionalMatchTy, hterm, matchTerm, if_neg hne, hflex]
  simp [bindParameter, hd, hceiling, typeSatisfiesDomain]

theorem subsumes_arrayAnswer (hp : ConstInput inputUniverses p) :
    subsumes inputUniverses inputDomains (openAnswer inputUniverses).result
      (arrayAnswer hp).result = true := by
  rw [subsumes, (arrayAnswer hp).copyAnswerApart_result, Option.bind_eq_bind, Option.bind_some]
  simp only [(openAnswer inputUniverses).copyAnswerApart_result, Option.bind_eq_bind,
    Option.bind_some]
  have hrequired : ∀ n, ((openAnswer inputUniverses).apart n).output =
      .type (AlphaEquivParam.ty ⟨.type, n⟩) := fun n => by
    have hrenamed := renamed_of_mem (openAnswer inputUniverses).nodup
      (v := (⟨spareParam inputUniverses, .type, 0, .any⟩, ⟨.type, n⟩)) List.mem_cons_self
    refine congrArg GoalOutput.type ?_
    rw [Ty.instantiate_param, hrenamed]
  have hknown : ((arrayAnswer hp).apart (firstFreeParam inputUniverses)).output =
      .type (.array .bool (.param (.alphaEquiv p))) := rfl
  rw [hrequired, hknown, matchOutput]
  rw [directionalMatchTy_array (by exact List.mem_cons_self) (by exact List.lookup_cons_self)]
  rfl

theorem not_instanceBy_arrayAnswer (hp : ConstInput inputUniverses p) {u : Universe}
    (hu : inputUniverses.lookup p = some u) (hne : u ≠ 0) (σ : AlphaEquivParam → Ty) :
    ¬(openAnswer inputUniverses).InstanceBy inputDomains (arrayAnswer hp) σ := by
  intro h
  have heq : σ (spareParam inputUniverses) = .array .bool (.param (.alphaEquiv p)) := by
    have := GoalOutput.type.inj h.output
    rwa [Ty.instantiate_param] at this
  have hwithin := h.ceiling _ List.mem_cons_self
  rw [heq] at hwithin
  refine hne (Nat.le_zero.mp (((Ty.over_inner (by trivial)).mp hwithin).1 u ?_))
  rwa [DefiniteAnswer.universes, lookup_input _ _ (by exact List.not_mem_nil)]

theorem exists_unsound (hp : ConstInput inputUniverses p) {u : Universe}
    (hu : inputUniverses.lookup p = some u) (hne : u ≠ 0) :
    ∃ c a : DefiniteAnswer inputUniverses,
      subsumes inputUniverses inputDomains c.result a.result = true ∧
        ¬c.Generalizes inputDomains a :=
  ⟨_, _, subsumes_arrayAnswer inputDomains hp, fun ⟨⟨σ, h⟩, _⟩ =>
    not_instanceBy_arrayAnswer inputDomains hp hu hne σ h⟩

end Lengths

end Sage
