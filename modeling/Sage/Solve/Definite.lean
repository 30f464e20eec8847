import Sage.Solve.Matching

/-!
# Solve — definite answers

A definite answer speaks about the inputs of its query and about variables of its own, which
stand for any types of their domains and universes.  Before two answers are compared their
variables and binders are renamed apart.

* `DefiniteAnswer` — an answer with the invariant that it names nothing else.
* `DefiniteAnswer.InstanceBy`, `DefiniteAnswer.Solution`, `DefiniteAnswer.Generalizes` — instances,
  and what an answer says.
* `renamed`, `restored`, `DefiniteAnswer.copyAnswerApart_result` — the renaming and its inverse.
-/

namespace Sage

/-! ### Definite answers -/

/-- The type parameters an answer may mention: the inputs of its query and its own variables. -/
def Visible (inputUniverses : ParamUniverses) (boundVars : List ResponseVarInfo)
    (p : AlphaEquivParam) : Prop :=
  p ∈ inputUniverses.map Prod.fst ∨ p ∈ boundVars.map ResponseVarInfo.param

/-- The parameters it may mention as array lengths. -/
def ConstInput (inputUniverses : ParamUniverses) (p : AlphaEquivParam) : Prop :=
  p ∈ inputUniverses.map Prod.fst ∧ p.kind = .const

/-- Outside binders a residual goal names what the rest of the answer may name. -/
theorem Ty.Over.of_unbound {V L : AlphaEquivParam → Prop} {t : Ty}
    (h : t.Over (fun p => V p ∨ GenericParam.alphaEquiv p ∈ []) L) : t.Over V L :=
  h.imp (fun _ hp => hp.resolve_right List.not_mem_nil) fun _ => id

/-- A definite answer to a query with the given inputs. -/
structure DefiniteAnswer (inputUniverses : ParamUniverses) where
  boundVars : List ResponseVarInfo
  output : GoalOutput
  substitution : List SubstEntry
  modulo : Goal
  nodup : (boundVars.map ResponseVarInfo.param).Nodup
  fresh : ∀ info ∈ boundVars, info.param ∉ inputUniverses.map Prod.fst
  output_over : ∀ t, output = .type t →
    t.Over (Visible inputUniverses boundVars) (ConstInput inputUniverses)
  substitution_over : ∀ e ∈ substitution,
    e.value.Over (Visible inputUniverses boundVars) (ConstInput inputUniverses)
  modulo_over : ∀ g ∈ modulo.conjuncts, g.Each (fun bound t =>
    t.Over (fun p => Visible inputUniverses boundVars p ∨ .alphaEquiv p ∈ bound)
      (ConstInput inputUniverses)) (fun _ => True) []

namespace DefiniteAnswer

variable {inputUniverses : ParamUniverses}

def result (a : DefiniteAnswer inputUniverses) : QueryResult :=
  ⟨a.boundVars, .yes a.output a.substitution a.modulo⟩

/-- The universes of the parameters an answer may mention. -/
def universes (a : DefiniteAnswer inputUniverses) : ParamUniverses :=
  a.boundVars.map (fun info => (info.param, info.relativeUniverse)) ++ inputUniverses

def domains (a : DefiniteAnswer inputUniverses) (inputDomains : ParamDomains) : ParamDomains :=
  a.boundVars.map (fun info => (info.param, info.domain)) ++ inputDomains

end DefiniteAnswer

/-- The type names no parameter above the ceiling, neither as a type nor as an array length. -/
def Ty.Within (universes : ParamUniverses) (ceiling : Universe) (t : Ty) : Prop :=
  t.Over (fun p => ∀ u, universes.lookup p = some u → u ≤ ceiling)
    fun p => ∀ u, universes.lookup p = some u → u ≤ ceiling

def GoalOutput.instantiate (σ : AlphaEquivParam → Ty) : GoalOutput → GoalOutput
  | .proven => .proven
  | .type t => .type (t.instantiate σ)

/-- `σ` gives the variables of `c` types over the inputs and the variables of `a`, each within its
domain and its ceiling, that turn what `c` says into what `a` says. -/
structure DefiniteAnswer.InstanceBy {inputUniverses : ParamUniverses} (inputDomains : ParamDomains)
    (c a : DefiniteAnswer inputUniverses) (σ : AlphaEquivParam → Ty) : Prop where
  fixes : ∀ p, p ∉ c.boundVars.map ResponseVarInfo.param → σ p = p.ty
  builtOver : ∀ info ∈ c.boundVars,
    (σ info.param).Over (Visible inputUniverses a.boundVars) (ConstInput inputUniverses)
  ceiling : ∀ info ∈ c.boundVars, (σ info.param).Within a.universes info.relativeUniverse
  domain : ∀ info ∈ c.boundVars,
    typeSatisfiesDomain (σ info.param) info.domain (a.domains inputDomains) = true
  output : c.output.instantiate σ = a.output
  substitution : ∀ e ∈ c.substitution, ∃ k ∈ a.substitution,
    k.key = e.key ∧ e.value.instantiate σ = k.value
  /- Goals with binders are never matched. -/
  modulo : ∀ g ∈ c.modulo.conjuncts, ∃ k ∈ a.modulo.conjuncts, g.binders = [] ∧
    (g.mapTy (Ty.instantiate σ)).spliced.SameAs k.spliced

/-! ### What an answer says -/

/-- A type without variables that names nothing above the universe. -/
def Ty.GroundBelow (U : GenericParam → Universe) (u : Universe) (t : Ty) : Prop :=
  t.All (Skeleton.Below U u) fun _ => False

/-- What goals hold, equalities in either order. -/
def RespectsEquality (Holds : Goal → Prop) : Prop :=
  ∀ l r, Holds (.atom (.equals l r)) → Holds (.atom (.equals r l))

/-- Types for the inputs within their universes and domains; array lengths stand for themselves. -/
structure InputTypes (inputUniverses : ParamUniverses) (inputDomains : ParamDomains)
    (U : GenericParam → Universe) (θ : AlphaEquivParam → Ty) : Prop where
  fixes : ∀ p, p ∉ inputUniverses.map Prod.fst → θ p = p.ty
  ceiling : ∀ p u, inputUniverses.lookup p = some u → (θ p).GroundBelow U u
  length : ∀ p u, inputUniverses.lookup p = some u → U (.alphaEquiv p) ≤ u
  domain : ∀ p, p ∈ inputUniverses.map Prod.fst →
    ((inputDomains.lookup p).getD .any).admits (θ p) = true

/-- The answer covers the types `θ` for the inputs with the output `out`: its variables can be
given types with which its constraints and its residual goals hold. -/
def DefiniteAnswer.Solution {inputUniverses : ParamUniverses} (U : GenericParam → Universe)
    (Holds : Goal → Prop) (r : DefiniteAnswer inputUniverses) (θ : AlphaEquivParam → Ty)
    (out : GoalOutput) : Prop :=
  ∃ τ : AlphaEquivParam → Ty, (∀ p, p ∉ r.boundVars.map ResponseVarInfo.param → τ p = θ p) ∧
    (∀ info ∈ r.boundVars, (τ info.param).GroundBelow U info.relativeUniverse ∧
      info.domain.admits (τ info.param) = true) ∧
    r.output.instantiate τ = out ∧ (∀ e ∈ r.substitution, θ e.key = e.value.instantiate τ) ∧
    ∀ g ∈ r.modulo.conjuncts, Holds (g.mapTy (Ty.instantiate τ)).spliced

/-- One answer is an instance of the other, so that every solution of it is one of the other. -/
def DefiniteAnswer.Generalizes {inputUniverses : ParamUniverses} (inputDomains : ParamDomains)
    (c a : DefiniteAnswer inputUniverses) : Prop :=
  (∃ σ, InstanceBy inputDomains c a σ) ∧
    ∀ U Holds θ out, RespectsEquality Holds → InputTypes inputUniverses inputDomains U θ →
      a.Solution U Holds θ out → c.Solution U Holds θ out

/-! ### Domains -/

theorem typeSatisfiesDomain_inner {t : Ty} (ht : t.Inner) (d : InferDomain)
    (domains : ParamDomains) : typeSatisfiesDomain t d domains = d.admits t := by
  rw [typeSatisfiesDomain.eq_def]
  split
  · rename_i hd
    rw [hd]
    rfl
  · split
    · exact ht.elim
    · rfl

theorem typeSatisfiesDomain_param {p : AlphaEquivParam} {d : InferDomain} {domains : ParamDomains} :
    typeSatisfiesDomain p.ty d domains = true ↔
      ((domains.lookup p).getD .any).intersect d = some ((domains.lookup p).getD .any) := by
  rw [typeSatisfiesDomain.eq_def]
  split
  · rename_i hd
    subst hd
    exact iff_of_true rfl (by cases (domains.lookup p).getD .any <;> rfl)
  · simp [AlphaEquivParam.ty]

/-- Whether a compound type is in a domain is decided by its head. -/
theorem InferDomain.admits_instantiate {t : Ty} (ht : t.Inner) (d : InferDomain)
    (σ : AlphaEquivParam → Ty) : d.admits (t.instantiate σ) = d.admits t := by
  rcases t with _ | _ | _ | _ | _ | _ | _ | (_ | _ | _) | _ | _ | _ | _ | _ | _ | _ | _ | _ <;>
    first
    | exact ht.elim
    | cases d <;> simp [admits, Ty.instantiate, Ty.foldLeaves, AliasTy.foldLeaves]

/-! ### Renaming apart -/

section Renaming

variable {boundVars : List ResponseVarInfo} {n : Nat}

theorem mem_renamedVars {v : ResponseVarInfo × AlphaEquivParam} :
    v ∈ renamedVars boundVars n ↔
      ∃ i, boundVars[i]? = some v.1 ∧ v.2 = ⟨v.1.kind, n + i⟩ := by
  rw [renamedVars, List.mem_map]
  constructor
  · rintro ⟨⟨info, k⟩, hm, rfl⟩
    obtain ⟨hle, hget⟩ := List.mk_mem_zipIdx_iff_le_and_getElem?_sub.mp hm
    exact ⟨k - n, hget, by rw [Nat.add_sub_cancel' hle]⟩
  · rintro ⟨i, hget, hv⟩
    refine ⟨(v.1, n + i), List.mk_mem_zipIdx_iff_le_and_getElem?_sub.mpr
      ⟨Nat.le_add_right n i, by rwa [Nat.add_sub_cancel_left]⟩, ?_⟩
    rw [← hv]

theorem renamedVars_fst : (renamedVars boundVars n).map Prod.fst = boundVars := by
  rw [renamedVars, List.map_map]
  exact List.zipIdx_map_fst n boundVars

theorem index_renamedVars {v : ResponseVarInfo × AlphaEquivParam}
    (hv : v ∈ renamedVars boundVars n) : n ≤ v.2.index ∧ v.2.index < n + boundVars.length := by
  obtain ⟨i, hget, hv⟩ := mem_renamedVars.mp hv
  rw [hv]
  exact ⟨Nat.le_add_right n i, Nat.add_lt_add_left (List.getElem?_eq_some_iff.mp hget).1 n⟩

/-- Different variables get different names. -/
theorem renamedVars_injective {v w : ResponseVarInfo × AlphaEquivParam}
    (hv : v ∈ renamedVars boundVars n) (hw : w ∈ renamedVars boundVars n) (h : v.2 = w.2) :
    v = w := by
  obtain ⟨i, hi, hv⟩ := mem_renamedVars.mp hv
  obtain ⟨j, hj, hw⟩ := mem_renamedVars.mp hw
  have hij : i = j := Nat.add_left_cancel (congrArg AlphaEquivParam.index (hv.symm.trans (h.trans hw)))
  rw [hij] at hi
  exact Prod.ext (Option.some.inj (hi.symm.trans hj)) h

theorem exists_renamedVars {info : ResponseVarInfo} (h : info ∈ boundVars) :
    ∃ q, (info, q) ∈ renamedVars boundVars n := by
  obtain ⟨i, hi⟩ := List.mem_iff_getElem?.mp h
  exact ⟨⟨info.kind, n + i⟩, mem_renamedVars.mpr ⟨i, hi, rfl⟩⟩

/-- One step of `renamingOf`. -/
def rename (mapping : TypeMapping) (p : ResponseVarInfo × AlphaEquivParam) : TypeMapping :=
  Function.update mapping (.alphaEquiv p.1.param) (some (.param (.alphaEquiv p.2)))

theorem renamingOf_eq (vars : List (ResponseVarInfo × AlphaEquivParam)) :
    renamingOf vars = vars.foldl rename fun _ => none := rfl

theorem renamingOf_of_notMem {vars : List (ResponseVarInfo × AlphaEquivParam)} {q : GenericParam}
    (h : ∀ v ∈ vars, q ≠ .alphaEquiv v.1.param) : renamingOf vars q = none := by
  suffices ∀ (vars : List (ResponseVarInfo × AlphaEquivParam)) (δ : TypeMapping),
      (∀ v ∈ vars, q ≠ .alphaEquiv v.1.param) →
      vars.foldl rename δ q = δ q from this vars _ h
  intro vars
  induction vars with
  | nil => intro δ _; rfl
  | cons v vars ih =>
      intro δ h
      obtain ⟨hv, h⟩ := List.forall_mem_cons.mp h
      rw [List.foldl_cons, ih _ h, rename, Function.update_of_ne hv]

theorem renamingOf_of_mem {vars : List (ResponseVarInfo × AlphaEquivParam)}
    (hnd : (vars.map fun v => v.1.param).Nodup) {v : ResponseVarInfo × AlphaEquivParam}
    (hv : v ∈ vars) : renamingOf vars (.alphaEquiv v.1.param) = some v.2.ty := by
  obtain ⟨before, after, rfl⟩ := List.append_of_mem hv
  rw [List.map_append, List.map_cons, List.nodup_append] at hnd
  have hafter := (List.nodup_cons.mp hnd.2.1).1
  suffices ∀ (vars : List (ResponseVarInfo × AlphaEquivParam)) (δ : TypeMapping),
      v.1.param ∉ vars.map (fun v => v.1.param) → δ (.alphaEquiv v.1.param) = some v.2.ty →
      vars.foldl rename δ (.alphaEquiv v.1.param) = some v.2.ty by
    rw [renamingOf_eq, List.foldl_append, List.foldl_cons]
    exact this after _ hafter (Function.update_self ..)
  intro vars
  induction vars with
  | nil => exact fun δ _ h => h
  | cons w vars ih =>
      intro δ hnot h
      rw [List.map_cons, List.mem_cons, not_or] at hnot
      rw [List.foldl_cons]
      refine ih _ hnot.2 ?_
      rw [rename, Function.update_of_ne (fun e => hnot.1 (GenericParam.alphaEquiv.inj e))]
      exact h

variable (boundVars n) in
/-- The new name of a parameter. -/
def renamed : AlphaEquivParam → Ty := (renamingOf (renamedVars boundVars n)).apply

variable (boundVars n) in
/-- The old name of a parameter. -/
def restored (q : AlphaEquivParam) : Ty :=
  (((renamedVars boundVars n).find? fun v => v.2 = q).map fun v => v.1.param.ty).getD q.ty

theorem renamed_of_mem (hnd : (boundVars.map ResponseVarInfo.param).Nodup)
    {v : ResponseVarInfo × AlphaEquivParam} (hv : v ∈ renamedVars boundVars n) :
    renamed boundVars n v.1.param = v.2.ty := by
  have hnd : ((renamedVars boundVars n).map fun v => v.1.param).Nodup := by
    have hmap := congrArg (List.map ResponseVarInfo.param) (@renamedVars_fst boundVars n)
    rw [List.map_map] at hmap
    exact hmap ▸ hnd
  rw [renamed, TypeMapping.apply, renamingOf_of_mem hnd hv]
  rfl

theorem renamed_of_notMem {p : AlphaEquivParam} (hp : p ∉ boundVars.map ResponseVarInfo.param) :
    renamed boundVars n p = p.ty := by
  rw [renamed, TypeMapping.apply, renamingOf_of_notMem fun v hv he => hp ?_]
  · rfl
  · have hm := List.mem_map_of_mem (f := Prod.fst) hv
    rw [renamedVars_fst] at hm
    exact (GenericParam.alphaEquiv.inj he) ▸ List.mem_map_of_mem hm

theorem restored_of_mem {v : ResponseVarInfo × AlphaEquivParam}
    (hv : v ∈ renamedVars boundVars n) : restored boundVars n v.2 = v.1.param.ty := by
  cases hfind : (renamedVars boundVars n).find? fun w => w.2 = v.2 with
  | none => exact absurd (by simp) (List.find?_eq_none.mp hfind v hv)
  | some w =>
      have heq : w.2 = v.2 := by simpa using List.find?_some hfind
      have hwv := renamedVars_injective (List.mem_of_find?_eq_some hfind) hv heq
      rw [restored, hfind, hwv]
      rfl

theorem restored_of_notMem {q : AlphaEquivParam}
    (hq : q ∉ (renamedVars boundVars n).map Prod.snd) : restored boundVars n q = q.ty := by
  have hfind : (renamedVars boundVars n).find? (fun w => w.2 = q) = none :=
    List.find?_eq_none.mpr fun w hw he => hq (by
      rw [← of_decide_eq_true he]
      exact List.mem_map_of_mem hw)
  rw [restored, hfind]
  rfl

theorem copyTy_renamingOf :
    IrCopier.copyTy (renamingOf (renamedVars boundVars n)) (fun _ => none) =
      Ty.instantiate (renamed boundVars n) :=
  IrCopier.copyTy_eq fun _ hq => renamingOf_of_notMem fun v _ => hq v.1.param

end Renaming

/-! ### An answer renamed apart -/

namespace DefiniteAnswer

variable {inputUniverses : ParamUniverses} (r : DefiniteAnswer inputUniverses) (n : Nat)

/-- The answer with its parameters and its binders numbered from `n` on. -/
def apart : AnswerView where
  output := r.output.instantiate (renamed r.boundVars n)
  substitution := r.substitution.map fun e => ⟨e.key, e.value.instantiate (renamed r.boundVars n)⟩
  modulo := (r.modulo.walk (IrCopier.walker (renamingOf (renamedVars r.boundVars n)))
    (fun _ => none) (some (n + r.boundVars.length))).1
  parameterUniverses := (renamedVars r.boundVars n).map fun v => (v.2, v.1.relativeUniverse)
  parameterDomains := (renamedVars r.boundVars n).map fun v => (v.2, v.1.domain)

/-- The first number that is free afterwards. -/
def next : Nat := n + r.boundVars.length + r.modulo.binders.length

theorem copyAnswerApart_result :
    copyAnswerApart r.result n = some (r.apart n, r.next n) := by
  have hnext : (r.modulo.walk (IrCopier.walker (renamingOf (renamedVars r.boundVars n)))
      (fun _ => none) (some (n + r.boundVars.length))).2 = some (r.next n) :=
    (IrCopier.numbers_goal _ r.modulo _).2
  have houtput : IrCopier.copyOutput (renamingOf (renamedVars r.boundVars n)) r.output =
      r.output.instantiate (renamed r.boundVars n) := by
    cases r.output with
    | proven => rfl
    | type t => rw [IrCopier.copyOutput, copyTy_renamingOf, GoalOutput.instantiate]
  have hsubst : copySubstitution (renamingOf (renamedVars r.boundVars n)) r.substitution =
      (r.apart n).substitution := by
    rw [copySubstitution, copyTy_renamingOf, apart]
  have hcopy : copyAnswerApart r.result n = some
      (⟨IrCopier.copyOutput (renamingOf (renamedVars r.boundVars n)) r.output,
        copySubstitution (renamingOf (renamedVars r.boundVars n)) r.substitution,
        (r.apart n).modulo, (r.apart n).parameterUniverses, (r.apart n).parameterDomains⟩,
        (r.modulo.walk (IrCopier.walker (renamingOf (renamedVars r.boundVars n)))
          (fun _ => none) (some (n + r.boundVars.length))).2.getD n) := rfl
  rw [hcopy, hnext, houtput, hsubst]
  rfl

end DefiniteAnswer

/-! ### Reading a match back -/

theorem lookup_of_mem {α : Type} {l : List (AlphaEquivParam × α)} {p : AlphaEquivParam} {x : α}
    (h : (p, x) ∈ l) (huniq : ∀ y, (p, y) ∈ l → y = x) : l.lookup p = some x := by
  induction l with
  | nil => exact absurd h List.not_mem_nil
  | cons e l ih =>
      obtain ⟨q, y⟩ := e
      by_cases hq : p = q
      · subst hq
        rw [List.lookup_cons_self, huniq y List.mem_cons_self]
      · rw [List.lookup_cons, beq_eq_false_iff_ne.mpr hq]
        refine ih ((List.mem_cons.mp h).resolve_left fun e => hq (congrArg Prod.fst e)) fun z hz => ?_
        exact huniq z (List.mem_cons_of_mem _ hz)

theorem lookup_of_notMem {α : Type} {l : List (AlphaEquivParam × α)} {p : AlphaEquivParam}
    (h : p ∉ l.map Prod.fst) : l.lookup p = none := by
  rw [List.lookup_eq_none_iff]
  intro e he
  exact bne_iff_ne.mpr fun e' => h (e' ▸ List.mem_map_of_mem he)

theorem le_firstFreeParam {inputUniverses : ParamUniverses} {p : AlphaEquivParam}
    (h : p ∈ inputUniverses.map Prod.fst) : p.index < firstFreeParam inputUniverses := by
  rw [firstFreeParam]
  induction inputUniverses with
  | nil => exact absurd h List.not_mem_nil
  | cons e l ih =>
      rw [List.map_cons, List.foldr_cons]
      rcases List.mem_cons.mp h with rfl | h
      · exact Nat.lt_of_lt_of_le (Nat.lt_succ_self _) (Nat.le_max_left ..)
      · exact Nat.lt_of_lt_of_le (ih h) (Nat.le_max_right ..)

section Renamed

variable {boundVars : List ResponseVarInfo} {n : Nat} {α : Type}

/-- A record of some variables, under their new names. -/
theorem lookup_renamedVars {v : ResponseVarInfo × AlphaEquivParam} (f : ResponseVarInfo → α)
    (hv : v ∈ renamedVars boundVars n) :
    ((renamedVars boundVars n).map fun w => (w.2, f w.1)).lookup v.2 = some (f v.1) := by
  refine lookup_of_mem (List.mem_map.mpr ⟨v, hv, rfl⟩) fun y hy => ?_
  obtain ⟨w, hw, he⟩ := List.mem_map.mp hy
  obtain ⟨h2, rfl⟩ := Prod.mk.inj he
  rw [renamedVars_injective hw hv h2]

theorem lookup_renamedVars_of_notMem {q : AlphaEquivParam} (f : ResponseVarInfo → α)
    (hq : q ∉ (renamedVars boundVars n).map Prod.snd) :
    ((renamedVars boundVars n).map fun w => (w.2, f w.1)).lookup q = none :=
  lookup_of_notMem (by simpa using hq)

/-- A record of the variables of an answer and of the inputs, under their own names. -/
theorem lookup_boundVars (hnd : (boundVars.map ResponseVarInfo.param).Nodup)
    {info : ResponseVarInfo} (f : ResponseVarInfo → α) (inputs : List (AlphaEquivParam × α))
    (hi : info ∈ boundVars) :
    (boundVars.map (fun i => (i.param, f i)) ++ inputs).lookup info.param = some (f info) := by
  have hbound : (boundVars.map fun i => (i.param, f i)).lookup info.param = some (f info) := by
    refine lookup_of_mem (List.mem_map.mpr ⟨info, hi, rfl⟩) fun y hy => ?_
    obtain ⟨j, hj, he⟩ := List.mem_map.mp hy
    obtain ⟨hp, rfl⟩ := Prod.mk.inj he
    rw [List.inj_on_of_nodup_map hnd hj hi hp]
  rw [List.lookup_append, hbound, Option.some_or]

theorem lookup_input {p : AlphaEquivParam} (f : ResponseVarInfo → α)
    (inputs : List (AlphaEquivParam × α)) (hp : p ∉ boundVars.map ResponseVarInfo.param) :
    (boundVars.map (fun i => (i.param, f i)) ++ inputs).lookup p = inputs.lookup p := by
  rw [List.lookup_append, lookup_of_notMem (by simpa using hp), Option.none_or]

theorem notMem_renamedVars {p : AlphaEquivParam} (hp : p.index < n) :
    p ∉ (renamedVars boundVars n).map Prod.snd := by
  intro hm
  obtain ⟨v, hv, rfl⟩ := List.mem_map.mp hm
  exact absurd (index_renamedVars hv).1 (Nat.not_le.mpr hp)

/-- Renaming is undone, for the variables and for what has smaller numbers. -/
theorem restored_renamed (hnd : (boundVars.map ResponseVarInfo.param).Nodup) {p : AlphaEquivParam}
    (hp : p ∈ boundVars.map ResponseVarInfo.param ∨ p.index < n) :
    (renamed boundVars n p).instantiate (restored boundVars n) = p.ty := by
  by_cases hb : p ∈ boundVars.map ResponseVarInfo.param
  · obtain ⟨info, hi, rfl⟩ := List.mem_map.mp hb
    obtain ⟨q, hq⟩ := exists_renamedVars (n := n) hi
    rw [renamed_of_mem hnd hq, Ty.instantiate_param, restored_of_mem hq]
  · rw [renamed_of_notMem hb, Ty.instantiate_param]
    exact restored_of_notMem (notMem_renamedVars (hp.resolve_left hb))

end Renamed

end Sage
