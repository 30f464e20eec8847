import Sage.Solve.Instance
import Sage.Solve.Subsume

/-!
# Solve — what matching finds

`directionalMatchTy` and `directionalMatchGoal` grow an assignment of the flexible parameters.  An
assignment is never taken back, so what one match has equated stays equal to the end.

* `Matches` — a step that only adds to the assignment, each addition fitting its parameter, after
  which every instance of the assignment makes the two sides equal.
* `directionalMatchTy_matches`, `directionalMatchGoal_matches`, `matchGoals_matches` — types, goals
  and the residual goals of two answers.
-/

namespace Sage

/-- A replacement that fixes everything but the flexible parameters, and gives those what they are
bound to. -/
structure Bindings.Instance (flexible : List AlphaEquivParam) (bindings : Bindings)
    (σ : AlphaEquivParam → Ty) : Prop where
  fixes : ∀ p, p ∉ flexible → σ p = p.ty
  binds : ∀ p t, bindings.lookup p = some t → σ p = t

/-- A type of the known answer that a flexible parameter may be bound to. -/
structure FitsParameter (universes : ParamUniverses) (domains : ParamDomains)
    (P L : AlphaEquivParam → Prop) (p : AlphaEquivParam) (t : Ty) : Prop where
  builtOver : t.Over P L
  domain : typeSatisfiesDomain t ((domains.lookup p).getD .any) domains = true
  ceiling : containsNewerParameter t ((universes.lookup p).getD 0) universes = false

section Matches

variable (flexible : List AlphaEquivParam) (universes : ParamUniverses) (domains : ParamDomains)
  (P L : AlphaEquivParam → Prop)

def Bindings.Fit (bindings : Bindings) : Prop :=
  ∀ p t, bindings.lookup p = some t → p ∈ flexible ∧ FitsParameter universes domains P L p t

/-- From `bindings` to `bindings'` the assignment grew by types that fit, and every instance of
`bindings'` meets `E`. -/
structure Matches (bindings bindings' : Bindings) (E : (AlphaEquivParam → Ty) → Prop) : Prop where
  extends_ : ∀ p t, bindings.lookup p = some t → bindings'.lookup p = some t
  fit : bindings.Fit flexible universes domains P L → bindings'.Fit flexible universes domains P L
  equal : ∀ σ, bindings'.Instance flexible σ → E σ

variable {flexible universes domains P L} {B B' B'' : Bindings} {E E' : (AlphaEquivParam → Ty) → Prop}

theorem Bindings.Instance.of_extends {σ : AlphaEquivParam → Ty}
    (h : B'.Instance flexible σ) (he : ∀ p t, B.lookup p = some t → B'.lookup p = some t) :
    B.Instance flexible σ := ⟨h.fixes, fun p t hp => h.binds p t (he p t hp)⟩

theorem Matches.rfl' (h : ∀ σ, B.Instance flexible σ → E σ) :
    Matches flexible universes domains P L B B E := ⟨fun _ _ => id, id, h⟩

theorem Matches.trans (h : Matches flexible universes domains P L B B' E)
    (h' : Matches flexible universes domains P L B' B'' E') :
    Matches flexible universes domains P L B B'' fun σ => E σ ∧ E' σ where
  extends_ p t hp := h'.extends_ p t (h.extends_ p t hp)
  fit hB := h'.fit (h.fit hB)
  equal σ hσ := ⟨h.equal σ (hσ.of_extends h'.extends_), h'.equal σ hσ⟩

theorem Matches.imp (h : Matches flexible universes domains P L B B' E)
    (hE : ∀ σ, B'.Instance flexible σ → E σ → E' σ) :
    Matches flexible universes domains P L B B' E' :=
  ⟨h.extends_, h.fit, fun σ hσ => hE σ hσ (h.equal σ hσ)⟩

/-! ### Types -/

theorem Ty.param_of_skeleton {t : Ty} {q : GenericParam}
    (h : (decompose t).skeleton = (decompose (.param q)).skeleton) : t = .param q := by
  refine decompose_injective h ?_
  have hlen := length_children t
  rw [h] at hlen
  exact List.eq_nil_of_length_eq_zero hlen

/-- What a successful match of two types did. -/
theorem directionalMatchTy_cases {required known : Ty}
    (h : directionalMatchTy flexible universes domains required known B = some B') :
    (known = required ∧ B' = B) ∨
    (∃ p ∈ flexible, required = p.ty ∧ bindParameter universes domains p known B = some B') ∨
    (required.Inner ∧ (decompose required).skeleton = (decompose known).skeleton ∧
      directionalMatchTys flexible universes domains (decompose required).children
        (decompose known).children B = some B') := by
  rw [directionalMatchTy] at h
  rcases required.cases_leaf with hr | ⟨x, rfl⟩ | ⟨q, rfl⟩
  · rw [Ty.term_eq hr.rigid, matchTerm] at h
    split at h
    · rename_i heq
      rw [← Ty.term_eq hr.rigid] at heq
      exact .inl ⟨Ty.term_injective heq, (Option.some.inj h).symm⟩
    · have hflex : flexibleParameter flexible (decompose required).skeleton = none := by
        rcases required with _ | _ | _ | _ | _ | _ | _ | (_ | _ | _) | _ | _ | _ | _ | _ | _ | _ | _ | _
          <;> first | rfl | exact hr.elim
      rw [hflex] at h
      simp only at h
      split at h
      · rename_i hs
        exact .inr (.inr ⟨hr, hs, h⟩)
      · cases h
  · rw [Ty.term_inferVar, matchTerm] at h
    split at h
    · rename_i heq
      exact .inl ⟨heq, (Option.some.inj h).symm⟩
    · cases h
  · rw [Ty.term_eq (by trivial), matchTerm] at h
    split at h
    · rename_i heq
      rw [← Ty.term_eq (by trivial)] at heq
      exact .inl ⟨Ty.term_injective heq, (Option.some.inj h).symm⟩
    · rename_i hne
      cases hflex : flexibleParameter flexible (decompose (Ty.param q)).skeleton with
      | none =>
          rw [hflex] at h
          simp only at h
          split at h
          · rename_i hs
            rw [Ty.param_of_skeleton hs.symm] at hne
            exact absurd (Ty.term_eq (by trivial)) hne
          · cases h
      | some p =>
          rw [hflex] at h
          simp only [decompose, leaf, flexibleParameter] at hflex
          split at hflex
          · rename_i p' hp'
            split at hflex
            · rename_i hmem
              obtain rfl := Option.some.inj hflex
              exact .inr (.inl ⟨p', hmem, congrArg Ty.param (Skeleton.param.inj hp'), h⟩)
            · cases hflex
          · cases hflex

theorem newerTerms_eq_any (ceiling : Universe) (ts : List (Terms.Term Skeleton InferVarIndex)) :
    newerTerms universes ceiling ts = ts.any (newerTerm universes ceiling) := by
  induction ts with
  | nil => rfl
  | cons t ts ih => simp [newerTerms, ih]

theorem containsNewerParameter_inner {t : Ty} (h : t.Inner) (ceiling : Universe) :
    containsNewerParameter t ceiling universes =
      (decompose t).children.any fun c => containsNewerParameter c ceiling universes := by
  have hnode : containsNewerParameter t ceiling universes =
      newerTerms universes ceiling ((decompose t).children.map Ty.term) := by
    rw [containsNewerParameter, Ty.term_eq h.rigid]
    rcases t with _ | _ | _ | _ | _ | _ | _ | (_ | _ | _) | _ | _ | _ | _ | _ | _ | _ | _ | _ <;>
      first | exact h.elim | rfl
  rw [hnode, newerTerms_eq_any, List.any_map]
  rfl

/-- The ceiling is checked where parameters stand for types, and nowhere else. -/
theorem over_of_not_newer {ceiling : Universe} {t : Ty} (h : t.Over P L)
    (hn : containsNewerParameter t ceiling universes = false) :
    t.Over (fun p => P p ∧ ∀ u, universes.lookup p = some u → u ≤ ceiling) L := by
  induction t using Ty.induction with
  | step t ih =>
      rcases t.cases_param with ht | ⟨x, rfl⟩ | ⟨p, rfl⟩ | ⟨q, rfl, hq⟩
      · obtain ⟨hs, hc⟩ := (Ty.over_inner ht).mp h
        rw [containsNewerParameter_inner ht, List.any_eq_false] at hn
        refine (Ty.over_inner ht).mpr ⟨Skeleton.Over.of_inner ht hs, fun c hm => ?_⟩
        exact ih c hm (hc c hm) (by simpa using hn c hm)
      · exact absurd h (Ty.not_over_inferVar x)
      · refine Ty.over_param.mpr ⟨Ty.over_param.mp h, fun u hu => ?_⟩
        have hnewer : containsNewerParameter p.ty ceiling universes =
            (universes.lookup p).any fun u => decide (ceiling < u) := rfl
        rw [hnewer, hu] at hn
        simpa using hn
      · exact absurd h (Ty.not_over_foreign hq)

theorem bindParameter_matches {p : AlphaEquivParam} {known : Ty} (hp : p ∈ flexible)
    (hk : known.Over P L) (h : bindParameter universes domains p known B = some B') :
    Matches flexible universes domains P L B B' fun σ => σ p = known := by
  rw [bindParameter] at h
  cases hl : B.lookup p with
  | some previous =>
      rw [hl] at h
      simp only [structuralTyEq, decide_eq_true_eq] at h
      split at h
      · rename_i heq
        obtain rfl := Option.some.inj h
        exact .rfl' fun σ hσ => (hσ.binds p previous hl).trans heq
      · cases h
  | none =>
      rw [hl] at h
      simp only at h
      split at h
      · cases h
      rename_i hdomain
      split at h
      · cases h
      rename_i hceiling
      obtain rfl := Option.some.inj h
      have hlookup : ∀ q t, ((p, known) :: B).lookup q = some t ↔
          (q = p ∧ t = known) ∨ (q ≠ p ∧ B.lookup q = some t) := by
        intro q t
        by_cases hq : q = p
        · subst hq
          simp [eq_comm]
        · simp [List.lookup_cons, beq_eq_false_iff_ne.mpr hq, hq]
      refine ⟨fun q t hq => (hlookup q t).mpr (.inr ⟨?_, hq⟩), fun hfit q t hq => ?_, fun σ hσ =>
        hσ.binds p known ((hlookup p known).mpr (.inl ⟨rfl, rfl⟩))⟩
      · rintro rfl
        rw [hl] at hq
        cases hq
      · rcases (hlookup q t).mp hq with ⟨rfl, rfl⟩ | ⟨-, hq⟩
        · exact ⟨hp, hk, by simpa using hdomain, by simpa using hceiling⟩
        · exact hfit q t hq

/-- A list of types is matched in order, each under what the earlier ones bound. -/
theorem matchTys_of_forall {rs : List Ty} (hrs : ∀ r ∈ rs, ∀ {known : Ty} {B B' : Bindings},
      known.Over P L → directionalMatchTy flexible universes domains r known B = some B' →
      Matches flexible universes domains P L B B' fun σ => r.instantiate σ = known) :
    ∀ {ks : List Ty} {B B' : Bindings}, (∀ k ∈ ks, k.Over P L) →
      directionalMatchTys flexible universes domains rs ks B = some B' →
      Matches flexible universes domains P L B B' fun σ => rs.map (Ty.instantiate σ) = ks := by
  induction rs with
  | nil =>
      intro ks B B' _ h
      cases ks with
      | nil =>
          obtain rfl := Option.some.inj h
          exact .rfl' fun _ _ => rfl
      | cons k ks => cases h
  | cons r rs ih =>
      intro ks B B' hks h
      cases ks with
      | nil => cases h
      | cons k ks =>
          obtain ⟨hk, hks⟩ := List.forall_mem_cons.mp hks
          rw [directionalMatchTys, List.map_cons, matchTerms, Option.bind_eq_bind,
            Option.bind_eq_some_iff] at h
          obtain ⟨B₁, hr, h⟩ := h
          refine ((hrs r List.mem_cons_self hk hr).trans
            (ih (fun r hr => hrs r (List.mem_cons_of_mem _ hr)) hks h)).imp ?_
          rintro σ - ⟨hr, hrs⟩
          rw [List.map_cons, hr, hrs]

/-- Matching types makes them equal, where the known type mentions no flexible parameter. -/
theorem directionalMatchTy_matches (hP : ∀ p, P p → p ∉ flexible) (required : Ty) :
    ∀ {known : Ty} {B B' : Bindings}, known.Over P L →
      directionalMatchTy flexible universes domains required known B = some B' →
      Matches flexible universes domains P L B B' fun σ => required.instantiate σ = known := by
  induction required using Ty.induction with
  | step required ih =>
      intro known B B' hk h
      rcases directionalMatchTy_cases h with ⟨rfl, rfl⟩ | ⟨p, hp, hr, hb⟩ | ⟨hr, hs, hc⟩
      · exact .rfl' fun σ hσ => Ty.instantiate_eq_self hk fun p hp => hσ.fixes p (hP p hp)
      · rw [hr]
        exact (bindParameter_matches hp hk hb).imp fun σ _ heq => Ty.instantiate_param.trans heq
      · have hknown := Ty.inner_of_skeleton hr hs.symm
        have hks := ((Ty.over_inner hknown).mp hk).2
        exact (matchTys_of_forall ih hks hc).imp fun σ _ heq =>
          Ty.instantiate_eq_of_children hr hs heq

theorem directionalMatchTys_matches (hP : ∀ p, P p → p ∉ flexible) {rs ks : List Ty}
    (hks : ∀ k ∈ ks, k.Over P L)
    (h : directionalMatchTys flexible universes domains rs ks B = some B') :
    Matches flexible universes domains P L B B' fun σ => rs.map (Ty.instantiate σ) = ks :=
  matchTys_of_forall (fun r _ => directionalMatchTy_matches hP r) hks h

/-! ### Goals -/

/-- One goal is the other, up to the order of the sides of an equality. -/
def Goal.SameAs : Goal → Goal → Prop
  | .atom (.equals l r), g => g = .atom (.equals l r) ∨ g = .atom (.equals r l)
  | g, g' => g' = g

/-- An instance of an atom is the known goal; other goals are matched as they stand. -/
def Goal.MatchedBy (σ : AlphaEquivParam → Ty) : Goal → Goal → Prop
  | .atom a, known => (Goal.atom (a.mapTy (Ty.instantiate σ))).SameAs known
  | required, known => known = required

theorem sides_matches (hP : ∀ p, P p → p ∉ flexible) {l r l' r' : Ty} (hl : l'.Over P L)
    (hr : r'.Over P L)
    (h : directionalMatchTys flexible universes domains [l, r] [l', r'] B = some B') :
    Matches flexible universes domains P L B B' fun σ =>
      l.instantiate σ = l' ∧ r.instantiate σ = r' := by
  refine (directionalMatchTys_matches hP ?_ h).imp fun σ _ heq => ?_
  · simpa using ⟨hl, hr⟩
  · simpa using heq

theorem directionalMatchGoal_matches (hP : ∀ p, P p → p ∉ flexible) {required known : Goal}
    (hk : ∀ a, known = .atom a → ∀ t ∈ a.types, t.Over P L)
    (h : directionalMatchGoal flexible universes domains required known B = some B') :
    Matches flexible universes domains P L B B' fun σ => required.MatchedBy σ known := by
  rw [directionalMatchGoal.eq_def] at h
  split at h
  case h_1 rs rr ks kr =>
    split at h
    · rename_i heq
      rw [Option.bind_eq_bind, Option.bind_eq_some_iff] at h
      obtain ⟨B₁, hself, hargs⟩ := h
      obtain ⟨ht, hts⟩ := List.forall_mem_cons.mp (hk _ rfl)
      refine ((directionalMatchTy_matches hP rs ht hself).trans
        (directionalMatchTys_matches hP hts hargs)).imp ?_
      rintro σ - ⟨hself, hargs⟩
      change Goal.atom (.traitImpl ks kr) = _
      rw [Atom.mapTy, TraitRef.mapTy, hself, hargs, heq.1]
    · cases h
  case h_2 l r l' r' =>
    have hl : l'.Over P L := hk _ rfl l' List.mem_cons_self
    have hr : r'.Over P L := hk _ rfl r' (List.mem_cons_of_mem _ List.mem_cons_self)
    rcases Option.or_eq_some_iff.mp (Option.or_eq_orElse.trans h) with h | ⟨-, h⟩
    · refine (sides_matches hP hl hr h).imp ?_
      rintro σ - ⟨hl, hr⟩
      exact .inl (by rw [hl, hr])
    · refine (sides_matches hP hr hl h).imp ?_
      rintro σ - ⟨hl, hr⟩
      exact .inr (by rw [hl, hr])
  case h_3 =>
    obtain rfl := Option.some.inj h
    exact .rfl' fun _ _ => rfl
  case h_4 | h_5 | h_6 =>
    split at h
    · rename_i heq
      obtain rfl := Option.some.inj h
      exact .rfl' fun _ _ => by simp [Goal.MatchedBy, heq]
    · cases h
  case h_7 => cases h

/-- Every required goal is matched with a known one. -/
theorem matchGoals_matches (hP : ∀ p, P p → p ∉ flexible) {known : List Goal}
    (hk : ∀ k ∈ known, ∀ a, k = .atom a → ∀ t ∈ a.types, t.Over P L) :
    ∀ {required : List Goal} {B B' : Bindings},
      matchGoals flexible universes domains known required B = some B' →
      Matches flexible universes domains P L B B' fun σ =>
        ∀ r ∈ required, ∃ k ∈ known, r.MatchedBy σ k := by
  intro required
  induction required with
  | nil =>
      intro B B' h
      obtain rfl := Option.some.inj h
      exact .rfl' fun _ _ => nofun
  | cons r rest ih =>
      intro B B' h
      rw [matchGoals, Option.bind_eq_bind, Option.bind_eq_some_iff] at h
      obtain ⟨B₁, hfind, h⟩ := h
      obtain ⟨k, hk', hr⟩ := List.exists_of_findSome?_eq_some hfind
      refine ((directionalMatchGoal_matches hP (hk k hk') hr).trans (ih h)).imp ?_
      rintro σ - ⟨hr, hrest⟩ g hg
      rcases List.mem_cons.mp hg with rfl | hg
      · exact ⟨k, hk', hr⟩
      · exact hrest g hg

/-! ### Answers -/

theorem matchOutput_matches (hP : ∀ p, P p → p ∉ flexible) {required known : GoalOutput}
    (hk : ∀ t, known = .type t → t.Over P L)
    (h : matchOutput flexible universes domains required known B = some B') :
    Matches flexible universes domains P L B B' fun σ =>
      (required = .proven ∧ known = .proven) ∨
        ∃ t u, required = .type t ∧ known = .type u ∧ t.instantiate σ = u := by
  rw [matchOutput.eq_def] at h
  split at h
  · obtain rfl := Option.some.inj h
    exact .rfl' fun _ _ => .inl ⟨rfl, rfl⟩
  · rename_i t u
    exact (directionalMatchTy_matches hP t (hk u rfl) h).imp fun σ _ heq =>
      .inr ⟨t, u, rfl, rfl, heq⟩
  · cases h

/-- Every required entry equals the known one of its key. -/
theorem matchSubstitution_matches (hP : ∀ p, P p → p ∉ flexible) {known : List SubstEntry}
    (hk : ∀ e ∈ known, e.value.Over P L) :
    ∀ {required : List SubstEntry} {B B' : Bindings},
      matchSubstitution flexible universes domains known required B = some B' →
      Matches flexible universes domains P L B B' fun σ => ∀ r ∈ required, ∃ k ∈ known,
        k.key = r.key ∧ r.value.instantiate σ = k.value := by
  intro required
  induction required with
  | nil =>
      intro B B' h
      obtain rfl := Option.some.inj h
      exact .rfl' fun _ _ => nofun
  | cons r rest ih =>
      intro B B' h
      simp only [matchSubstitution, Option.bind_eq_bind, Option.bind_eq_some_iff] at h
      obtain ⟨k, hfind, B₁, hr, h⟩ := h
      have hmem := List.mem_of_find?_eq_some hfind
      have hkey : k.key = r.key := by simpa using List.find?_some hfind
      refine ((directionalMatchTy_matches hP r.value (hk k hmem) hr).trans (ih h)).imp ?_
      rintro σ - ⟨hr, hrest⟩ e he
      rcases List.mem_cons.mp he with rfl | he
      · exact ⟨k, hmem, hkey, hr⟩
      · exact hrest e he

end Matches

end Sage
