import Sage.Solve.AntiUnify
import Sage.Solve.Definite

/-!
# Solve — common hints are common

`merge_hints` keeps what several possible answers agree on.  Every one of them is an instance of
the merged answer: one assignment of the new parameters turns all merged hints at once into the
values of that answer.  The parameters of the merged hints are inputs and the new ones.

* `Merges` — what anti-unification of several rows of types creates, with one assignment a row.
* `mergeTypes_merges`, `mergeEntries_merges` — types, and the entries of all keys.
* `mergeHints_sound` — the merged answer; `mergeHints_unshared` — what it does not do.
-/

namespace Sage

/-! ### Rows of types -/

/-- The parts of a type have the property when it does. -/
def Inherited (Q : Ty → Prop) : Prop := ∀ t, Q t → ∀ c ∈ (decompose t).children, Q c

theorem inherited_over {P L : AlphaEquivParam → Prop} : Inherited (Ty.Over P L) := by
  intro t h c hc
  rcases t.cases_leaf with ht | ⟨x, rfl⟩ | ⟨p, rfl⟩
  · exact ((Ty.over_inner ht).mp h).2 c hc
  all_goals exact absurd hc List.not_mem_nil

/-- The parameters of some variables. -/
abbrev paramsOf (ws : List ResponseVarInfo) : List AlphaEquivParam := ws.map ResponseVarInfo.param

/-- From `a` to `a'` the variables `ws` were created, with the next numbers. -/
structure Created (a a' : AntiUnifier) (ws : List ResponseVarInfo) : Prop where
  witnesses : a'.witnesses = a.witnesses ++ ws
  next : a'.nextParam = a.nextParam + ws.length
  numbers : paramsOf ws = (List.range' a.nextParam ws.length).map (AlphaEquivParam.mk .type)
  kind : ∀ info ∈ ws, info.kind = .type

/-- Values for the variables `ws` that turn the types `ms` into those of the row, each a part of
them.  A row has types with universes. -/
structure RowInstance (domains : ParamDomains) (ws : List ResponseVarInfo) (ms : List Ty)
    (row : List (Universe × Ty)) (τ : AlphaEquivParam → Ty) : Prop where
  fixes : ∀ p, p ∉ paramsOf ws → τ p = p.ty
  equal : ms.map (Ty.instantiate τ) = row.map Prod.snd
  part : ∀ Q : Universe → Ty → Prop, (∀ u, Inherited (Q u)) → (∀ e ∈ row, Q e.1 e.2) →
    ∀ info ∈ ws, Q info.relativeUniverse (τ info.param)
  domain : ∀ info ∈ ws, (explicitParameterDomain domains (τ info.param)).intersect info.domain =
    some (explicitParameterDomain domains (τ info.param))

/-- Anti-unification of the rows made `ms`, with the old parameters `P` and new ones. -/
def Merges (domains : ParamDomains) (P L : AlphaEquivParam → Prop) (a a' : AntiUnifier)
    (ms : List Ty) (rows : List (List (Universe × Ty))) : Prop :=
  ∃ ws, Created a a' ws ∧ (∀ m ∈ ms, m.Over (fun p => P p ∨ p ∈ paramsOf ws) L) ∧
    ∀ row ∈ rows, ∃ τ, RowInstance domains ws ms row τ

section Merges

variable {domains : ParamDomains} {P L : AlphaEquivParam → Prop} {a a' a'' : AntiUnifier}
  {ws vs : List ResponseVarInfo} {ms ns : List Ty} {rows rows' rows'' : List (List (Universe × Ty))}

theorem Created.refl (a : AntiUnifier) : Created a a [] :=
  ⟨(List.append_nil _).symm, rfl, rfl, nofun⟩

theorem Created.trans (h : Created a a' ws) (h' : Created a' a'' vs) :
    Created a a'' (ws ++ vs) where
  witnesses := by rw [h'.witnesses, h.witnesses, List.append_assoc]
  next := by rw [h'.next, h.next, List.length_append, Nat.add_assoc]
  numbers := by
    rw [paramsOf, List.map_append, ← paramsOf, ← paramsOf, h.numbers, h'.numbers, h.next,
      ← List.map_append, List.length_append]
    congr 1
    rw [List.range'_append_1]
  kind info hi := (List.mem_append.mp hi).elim (h.kind info) (h'.kind info)

theorem Created.mem (h : Created a a' ws) {p : AlphaEquivParam} (hp : p ∈ paramsOf ws) :
    a.nextParam ≤ p.index ∧ p.index < a'.nextParam := by
  rw [h.numbers] at hp
  obtain ⟨i, hi, rfl⟩ := List.mem_map.mp hp
  rw [h.next]
  simpa [List.mem_range'_1] using hi

theorem Created.nodup (h : Created a a' ws) : (paramsOf ws).Nodup := by
  rw [h.numbers]
  refine List.Nodup.map (fun i j hij => ?_) List.nodup_range'
  exact congrArg AlphaEquivParam.index hij

/-- The values of the first variables, and of all others. -/
def joined (ws : List ResponseVarInfo) (τ κ : AlphaEquivParam → Ty) (p : AlphaEquivParam) : Ty :=
  if p ∈ paramsOf ws then τ p else κ p

theorem RowInstance.append {row row' : List (Universe × Ty)} {τ κ : AlphaEquivParam → Ty}
    (h : Created a a' ws) (h' : Created a' a'' vs) (hP : ∀ p, P p → p.index < a.nextParam)
    (hm : ∀ m ∈ ms, m.Over (fun p => P p ∨ p ∈ paramsOf ws) L)
    (hn : ∀ n ∈ ns, n.Over (fun p => P p ∨ p ∈ paramsOf vs) L)
    (hτ : RowInstance domains ws ms row τ) (hκ : RowInstance domains vs ns row' κ) :
    RowInstance domains (ws ++ vs) (ms ++ ns) (row ++ row') (joined ws τ κ) := by
  have hleft : ∀ p, p ∈ paramsOf ws → joined ws τ κ p = τ p := fun p hp => if_pos hp
  have hright : ∀ p, p ∈ paramsOf vs → joined ws τ κ p = κ p := fun p hp => if_neg fun hp' =>
    absurd (h'.mem hp).1 (Nat.not_le.mpr (h.mem hp').2)
  have hold : ∀ p, P p → τ p = p.ty ∧ κ p = p.ty ∧ joined ws τ κ p = p.ty := fun p hp => by
    have hws : p ∉ paramsOf ws := fun hm => absurd (h.mem hm).1 (Nat.not_le.mpr (hP p hp))
    have hvs : p ∉ paramsOf vs := fun hm => by
      have hlt := hP p hp
      have hle := (h'.mem hm).1
      rw [h.next] at hle
      exact absurd (Nat.le_of_add_right_le hle) (Nat.not_le.mpr hlt)
    exact ⟨hτ.fixes p hws, hκ.fixes p hvs, (if_neg hws).trans (hκ.fixes p hvs)⟩
  refine ⟨fun p hp => ?_, ?_, fun Q hQ hrow info hi => ?_, fun info hi => ?_⟩
  · rw [paramsOf, List.map_append, List.mem_append, not_or] at hp
    rw [joined, if_neg hp.1, hκ.fixes p hp.2]
  · rw [List.map_append, List.map_append, ← hτ.equal, ← hκ.equal]
    congr 1
    · refine List.map_congr_left fun m hmm => Ty.instantiate_congr (hm m hmm) fun p hp => ?_
      rcases hp with hp | hp
      · rw [(hold p hp).1, (hold p hp).2.2]
      · exact hleft p hp
    · refine List.map_congr_left fun n hnn => Ty.instantiate_congr (hn n hnn) fun p hp => ?_
      rcases hp with hp | hp
      · rw [(hold p hp).2.1, (hold p hp).2.2]
      · exact hright p hp
  · obtain ⟨hrow, hrow'⟩ := List.forall_mem_append.mp hrow
    rcases List.mem_append.mp hi with hi | hi
    · rw [hleft _ (List.mem_map_of_mem hi)]
      exact hτ.part Q hQ hrow info hi
    · rw [hright _ (List.mem_map_of_mem hi)]
      exact hκ.part Q hQ hrow' info hi
  · rcases List.mem_append.mp hi with hi | hi
    · rw [hleft _ (List.mem_map_of_mem hi)]
      exact hτ.domain info hi
    · rw [hright _ (List.mem_map_of_mem hi)]
      exact hκ.domain info hi

/-- One anti-unification after the other. -/
theorem Merges.append (hP : ∀ p, P p → p.index < a.nextParam)
    (h : Merges domains P L a a' ms rows) (h' : Merges domains P L a' a'' ns rows')
    (hrows : ∀ row ∈ rows'', ∃ r ∈ rows, ∃ r' ∈ rows', row = r ++ r') :
    Merges domains P L a a'' (ms ++ ns) rows'' := by
  obtain ⟨ws, hc, hm, hτ⟩ := h
  obtain ⟨vs, hc', hn, hκ⟩ := h'
  refine ⟨ws ++ vs, hc.trans hc', ?_, fun row hrow => ?_⟩
  · have hmono : ∀ {m : Ty} {qs : List AlphaEquivParam},
        m.Over (fun p => P p ∨ p ∈ qs) L → (∀ q ∈ qs, q ∈ paramsOf (ws ++ vs)) →
        m.Over (fun p => P p ∨ p ∈ paramsOf (ws ++ vs)) L := fun hm hqs =>
      hm.imp (fun p hp => hp.imp_right (hqs p)) fun _ => id
    intro m hmem
    rcases List.mem_append.mp hmem with hmem | hmem
    · exact hmono (hm m hmem) fun q hq => by
        rw [paramsOf, List.map_append]
        exact List.mem_append_left _ hq
    · exact hmono (hn m hmem) fun q hq => by
        rw [paramsOf, List.map_append]
        exact List.mem_append_right _ hq
  · obtain ⟨r, hr, r', hr', rfl⟩ := hrows row hrow
    obtain ⟨τ, hτ⟩ := hτ r hr
    obtain ⟨κ, hκ⟩ := hκ r' hr'
    exact ⟨_, hτ.append hc hc' hP hm hn hκ⟩

theorem Merges.nil (a : AntiUnifier) (hrows : ∀ row ∈ rows, row = []) :
    Merges domains P L a a [] rows := by
  refine ⟨[], .refl a, nofun, fun row hrow => ⟨AlphaEquivParam.ty, ⟨fun _ _ => rfl, ?_, ?_, nofun⟩⟩⟩
  · rw [hrows row hrow]
    rfl
  · exact fun _ _ _ => nofun

theorem Merges.next_le (h : Merges domains P L a a' ms rows) : a.nextParam ≤ a'.nextParam := by
  obtain ⟨ws, hc, -, -⟩ := h
  rw [hc.next]
  exact Nat.le_add_right ..

end Merges

/-! ### Types -/

section Types

variable {domains : ParamDomains} {u : Universe} {P P₀ P₁ L : AlphaEquivParam → Prop}
  {a : AntiUnifier}

/-- The child types of several types, one position after the other. -/
def AntiUnifier.mergeChildren (domains : ParamDomains) (u : Universe) (values : List Ty)
    (others : List (List Ty)) (a : AntiUnifier) : List Ty × AntiUnifier :=
  mergeTerms domains u (values.map Ty.term) values others a

/-- Equal values are kept, compound ones with the same head are merged part by part, and a new
variable stands for any others. -/
theorem mergeTypes_cases (domains : ParamDomains) (u : Universe) {value : Ty} (others : List Ty)
    (a : AntiUnifier) (hvalue : value.Over P₀ L) :
    ((∀ t ∈ others, t = value) ∧
      AntiUnifier.mergeTypes domains u value others a = ((value, false), a)) ∨
    (value.Inner ∧ (∀ t ∈ others, (decompose t).skeleton = (decompose value).skeleton) ∧
      ∃ cs a', AntiUnifier.mergeChildren domains u (decompose value).children
          (others.map fun t => (decompose t).children) a = (cs, a') ∧
        AntiUnifier.mergeTypes domains u value others a =
          (((recompose (decompose value).skeleton cs).getD value, false), a')) ∨
    AntiUnifier.mergeTypes domains u value others a =
      AntiUnifier.witness domains u value others a := by
  rw [AntiUnifier.mergeTypes]
  have hleaf : ∀ {s : Skeleton}, value.term = .node s [] →
      (∀ t ∈ others, t = value) ∧
        AntiUnifier.mergeTerm domains u value.term value others a = ((value, false), a) ∨
      AntiUnifier.mergeTerm domains u value.term value others a =
        AntiUnifier.witness domains u value others a := by
    intro s hs
    rw [hs, AntiUnifier.mergeTerm]
    split
    · rename_i hall
      exact .inl ⟨by simpa using hall, rfl⟩
    · exact .inr (if_neg fun h => h.1 rfl)
  rcases value.cases_leaf with hv | ⟨x, rfl⟩ | ⟨p, rfl⟩
  · rw [Ty.term_eq hv.rigid, AntiUnifier.mergeTerm]
    split
    · rename_i hall
      exact .inl ⟨by simpa using hall, rfl⟩
    · split
      · rename_i hsame
        refine .inr (.inl ⟨hv, fun t ht => ?_, _, _, rfl, rfl⟩)
        have hall := List.all_eq_true.mp hsame.2 t ht
        exact (of_decide_eq_true hall).1
      · exact .inr (.inr rfl)
  · exact absurd hvalue (Ty.not_over_inferVar x)
  · exact (hleaf (Ty.term_eq (by trivial))).imp_right .inr

/-- The statement of the induction: the values of a position are merged. -/
def MergesAt (domains : ParamDomains) (u : Universe) (P P₀ P₁ L : AlphaEquivParam → Prop)
    (value : Ty) : Prop :=
  ∀ (others : List Ty) (a : AntiUnifier), value.Over P₀ L → (∃ o ∈ others, o.Over P₁ L) →
    (∀ p, P p → p.index < a.nextParam) →
    Merges domains P L a (AntiUnifier.mergeTypes domains u value others a).2
      [(AntiUnifier.mergeTypes domains u value others a).1.1]
      ((value :: others).map fun t => [(u, t)])

theorem mergeChildren_merges {values : List Ty}
    (ih : ∀ v ∈ values, MergesAt domains u P P₀ P₁ L v) :
    ∀ (others : List (List Ty)) (a : AntiUnifier), (∀ v ∈ values, v.Over P₀ L) →
      (∀ o ∈ others, o.length = values.length) → (∃ o ∈ others, ∀ t ∈ o, t.Over P₁ L) →
      (∀ p, P p → p.index < a.nextParam) →
      Merges domains P L a (AntiUnifier.mergeChildren domains u values others a).2
        (AntiUnifier.mergeChildren domains u values others a).1
        ((values :: others).map fun ts => ts.map fun t => (u, t)) := by
  induction values with
  | nil =>
      intro others a _ hlen _ _
      refine .nil a fun row hrow => ?_
      obtain ⟨ts, hts, rfl⟩ := List.mem_map.mp hrow
      rcases List.mem_cons.mp hts with rfl | hts
      · rfl
      · rw [List.length_eq_zero_iff.mp (hlen ts hts)]
        rfl
  | cons v vs ihs =>
      intro others a hvalues hlen hsecond hP
      obtain ⟨hv, hvs⟩ := List.forall_mem_cons.mp hvalues
      obtain ⟨o, ho, hover⟩ := hsecond
      have hcons : ∀ o ∈ others, ∃ t ts, o = t :: ts ∧ ts.length = vs.length := fun o ho => by
        obtain ⟨t, ts, rfl⟩ := List.exists_cons_of_length_eq_add_one (hlen o ho)
        exact ⟨t, ts, rfl, Nat.succ.inj (hlen _ ho)⟩
      obtain ⟨t, ts, rfl, hts⟩ := hcons o ho
      obtain ⟨ht, hover⟩ := List.forall_mem_cons.mp hover
      have hhead := ih v List.mem_cons_self (others.filterMap List.head?) a hv
        ⟨t, List.mem_filterMap.mpr ⟨_, ho, rfl⟩, ht⟩ hP
      refine hhead.append hP (ihs (fun v hv => ih v (List.mem_cons_of_mem _ hv))
        (others.map List.tail) _ hvs (fun o ho => ?_) ⟨ts, List.mem_map.mpr ⟨_, ho, rfl⟩, hover⟩
        fun p hp => (hP p hp).trans_le hhead.next_le) fun row hrow => ?_
      · obtain ⟨o', ho', rfl⟩ := List.mem_map.mp ho
        obtain ⟨t, ts, rfl, hts⟩ := hcons o' ho'
        exact hts
      · obtain ⟨ws, hws, rfl⟩ := List.mem_map.mp hrow
        rcases List.mem_cons.mp hws with rfl | hws
        · exact ⟨_, List.mem_map_of_mem List.mem_cons_self, _,
            List.mem_map_of_mem List.mem_cons_self, rfl⟩
        · obtain ⟨w, ws, rfl, -⟩ := hcons ws hws
          exact ⟨_, List.mem_map_of_mem (List.mem_cons_of_mem _ (List.mem_filterMap.mpr ⟨_, hws, rfl⟩)),
            _, List.mem_map_of_mem (List.mem_cons_of_mem _ (List.mem_map_of_mem hws)), rfl⟩

theorem commonDomain_absorbs {d e : InferDomain} :
    d.intersect (commonDomain d e) = some d ∧ e.intersect (commonDomain d e) = some e := by
  cases d <;> cases e <;> exact ⟨rfl, rfl⟩

theorem intersect_trans {d e f : InferDomain} (h : d.intersect e = some d)
    (h' : e.intersect f = some e) : d.intersect f = some d := by
  cases d <;> cases e <;> cases f <;> simp_all [InferDomain.intersect]

/-- The domain of a new variable covers those of all the values. -/
theorem witness_domain {domains : ParamDomains} {d : InferDomain} {others : List Ty} :
    ∀ e, (e = d ∨ ∃ t ∈ others, e = explicitParameterDomain domains t) →
      e.intersect (others.foldl
        (fun d ty => commonDomain d (explicitParameterDomain domains ty)) d) = some e := by
  induction others generalizing d with
  | nil =>
      rintro e (rfl | ⟨t, ht, -⟩)
      · cases e <;> rfl
      · exact absurd ht List.not_mem_nil
  | cons t ts ih =>
      rintro e (rfl | ⟨u, hu, rfl⟩)
      · exact intersect_trans commonDomain_absorbs.1 (ih _ (.inl rfl))
      · rcases List.mem_cons.mp hu with rfl | hu
        · exact intersect_trans commonDomain_absorbs.2 (ih _ (.inl rfl))
        · exact ih _ (.inr ⟨u, hu, rfl⟩)

theorem witness_merges {value : Ty} {others : List Ty} :
    Merges domains P L a (AntiUnifier.witness domains u value others a).2
      [(AntiUnifier.witness domains u value others a).1.1]
      ((value :: others).map fun t => [(u, t)]) := by
  refine ⟨[_], ⟨rfl, rfl, rfl, ?_⟩, ?_, fun row hrow => ?_⟩
  · rintro info hi
    rw [List.mem_singleton.mp hi]
  · rintro m hm
    obtain rfl := List.mem_singleton.mp hm
    exact Ty.over_param.mpr (.inr List.mem_cons_self)
  · obtain ⟨t, ht, rfl⟩ := List.mem_map.mp hrow
    refine ⟨fun p => if p = ⟨.type, a.nextParam⟩ then t else p.ty, fun p hp => ?_, ?_,
      fun Q _ hQ info hi => ?_, fun info hi => ?_⟩
    · exact if_neg fun h => hp (List.mem_singleton.mpr h)
    · exact congrArg (fun t => [t]) (Ty.instantiate_param.trans (if_pos rfl))
    · rw [List.mem_singleton.mp hi, if_pos rfl]
      exact hQ _ List.mem_cons_self
    · rw [List.mem_singleton.mp hi, if_pos rfl]
      refine witness_domain _ ?_
      exact (List.mem_cons.mp ht).imp (fun h => congrArg _ h) fun h => ⟨t, h, rfl⟩

/-- Types with one head have the instances of their merged parts. -/
theorem recompose_merges {value : Ty} {others cs : List Ty} {a' : AntiUnifier}
    (hinner : value.Inner) (hvalue : value.Over P₀ L)
    (hsame : ∀ t ∈ others, (decompose t).skeleton = (decompose value).skeleton)
    (h : Merges domains P L a a' cs (((decompose value).children ::
      others.map fun t => (decompose t).children).map fun ts => ts.map fun t => (u, t))) :
    Merges domains P L a a' [(recompose (decompose value).skeleton cs).getD value]
      ((value :: others).map fun t => [(u, t)]) := by
  obtain ⟨ws, hc, hover, hrows⟩ := h
  have hlen : cs.length = (decompose value).skeleton.arity := by
    obtain ⟨τ, hτ⟩ := hrows _ (List.mem_map_of_mem List.mem_cons_self)
    have hmap := congrArg List.length hτ.equal
    rwa [List.length_map, List.length_map, List.length_map, length_children] at hmap
  obtain ⟨m, hm, hd⟩ := decompose_recompose hlen
  have hmi : m.Inner := Ty.inner_of_skeleton hinner (by rw [hd])
  rw [hm, Option.getD_some]
  refine ⟨ws, hc, fun m' hm' => ?_, fun row hrow => ?_⟩
  · obtain rfl := List.mem_singleton.mp hm'
    rw [Ty.over_inner hmi, hd]
    exact ⟨Skeleton.Over.of_inner hinner ((Ty.over_inner hinner).mp hvalue).1, hover⟩
  · obtain ⟨t, ht, rfl⟩ := List.mem_map.mp hrow
    have hskeleton : (decompose t).skeleton = (decompose value).skeleton :=
      (List.mem_cons.mp ht).elim (fun h => h ▸ rfl) (hsame t)
    obtain ⟨τ, hτ⟩ := hrows ((decompose t).children.map fun t => (u, t)) (by
      rw [← List.map_cons (f := fun t => (decompose t).children)]
      exact List.mem_map_of_mem (List.mem_map_of_mem ht))
    refine ⟨τ, hτ.fixes, ?_, fun Q hQ hrow => hτ.part Q hQ fun e he => ?_, hτ.domain⟩
    · refine congrArg (fun t => [t]) (Ty.instantiate_eq_of_children hmi ?_ ?_)
      · rw [hd, hskeleton]
      · rw [hd]
        simpa using hτ.equal
    · obtain ⟨c, hc, rfl⟩ := List.mem_map.mp he
      exact hQ u t (hrow _ List.mem_cons_self) c hc

/-- The merged type of some values has every value as an instance. -/
theorem mergeTypes_merges (hcommon : ∀ p, P₀ p → P₁ p → P p) (value : Ty) :
    MergesAt domains u P P₀ P₁ L value := by
  induction value using Ty.induction with
  | step value ih =>
      intro others a hvalue hsecond hP
      rcases mergeTypes_cases domains u others a hvalue with
        ⟨hall, hrun⟩ | ⟨hinner, hsame, cs, a', hchildren, hrun⟩ | hrun
      · rw [hrun]
        obtain ⟨o, ho, hover⟩ := hsecond
        obtain rfl := hall o ho
        have hover := (hvalue.and hover).imp (fun p hp => hcommon p hp.1 hp.2) fun _ h => h.1
        refine ⟨[], .refl a, fun m hm => ?_, fun row hrow => ⟨AlphaEquivParam.ty, fun _ _ => rfl, ?_,
          fun _ _ _ => nofun, nofun⟩⟩
        · rw [List.mem_singleton.mp hm]
          exact hover.imp (fun _ => .inl) fun _ => id
        · obtain ⟨t, ht, rfl⟩ := List.mem_map.mp hrow
          have hto : t = o := (List.mem_cons.mp ht).elim id (hall t)
          rw [hto, List.map_singleton, Ty.instantiate_eq_self hover fun _ _ => rfl]
          rfl
      · rw [hrun]
        have hmerged := mergeChildren_merges ih (others.map fun t => (decompose t).children) a
          ((Ty.over_inner hinner).mp hvalue).2 (fun o ho => ?_) ?_ hP
        · rw [hchildren] at hmerged
          exact recompose_merges hinner hvalue hsame hmerged
        · obtain ⟨t, ht, rfl⟩ := List.mem_map.mp ho
          rw [length_children, length_children, hsame t ht]
        · obtain ⟨o, ho, hover⟩ := hsecond
          exact ⟨_, List.mem_map_of_mem ho, fun t ht => inherited_over o hover t ht⟩
      · rw [hrun]
        exact witness_merges

end Types

/-! ### Entries -/

section Entries

variable {inputUniverses : ParamUniverses} {domains : ParamDomains} {hint : HintInput}
  {others : List HintInput} {P P₀ P₁ L : AlphaEquivParam → Prop}

/-- What a hint has for some keys, with the universes of the keys. -/
def HintInput.row (inputUniverses : ParamUniverses) (keys : List AlphaEquivParam)
    (h : HintInput) : List (Universe × Ty) :=
  keys.map fun key => ((inputUniverses.lookup key).getD 0, (h.get? key).getD key.ty)

/-- The merged entries of some keys have the entries of every hint as an instance. -/
theorem mergeEntries_merges (hcommon : ∀ p, P₀ p → P₁ p → P p) {keys : List AlphaEquivParam} :
    ∀ {a : AntiUnifier}, (∀ key ∈ keys, ∃ t, hint.get? key = some t ∧ t.Over P₀ L) →
      (∀ o ∈ others, ∀ key ∈ keys, (o.get? key).isSome) →
      (∃ o ∈ others, ∀ key ∈ keys, ∀ t, o.get? key = some t → t.Over P₁ L) →
      (∀ p, P p → p.index < a.nextParam) →
      ∃ ms, Merges domains P L a (mergeEntries inputUniverses domains hint others keys a).2 ms
          ((hint :: others).map (HintInput.row inputUniverses keys)) ∧
        ∀ e ∈ (mergeEntries inputUniverses domains hint others keys a).1,
          (e.key, e.value) ∈ keys.zip ms := by
  induction keys with
  | nil =>
      intro a _ _ _ _
      refine ⟨[], .nil a fun row hrow => ?_, fun e he => absurd he List.not_mem_nil⟩
      obtain ⟨h, -, rfl⟩ := List.mem_map.mp hrow
      rfl
  | cons key keys ih =>
      intro a hhint hothers hsecond hP
      obtain ⟨⟨value, hget, hover⟩, hhint⟩ := List.forall_mem_cons.mp hhint
      obtain ⟨o, ho, hsecond⟩ := hsecond
      have hvalues : ∀ o ∈ others, ∃ t, o.get? key = some t := fun o ho =>
        Option.isSome_iff_exists.mp (hothers o ho key List.mem_cons_self)
      obtain ⟨t, ht⟩ := hvalues o ho
      have hat : MergesAt domains ((inputUniverses.lookup key).getD 0) P P₀ P₁ L value :=
        mergeTypes_merges hcommon value
      have hhead := hat (others.filterMap (HintInput.get? · key)) a hover
        ⟨t, List.mem_filterMap.mpr ⟨o, ho, ht⟩, hsecond key List.mem_cons_self t ht⟩ hP
      rw [mergeEntries, hget]
      simp only
      generalize AntiUnifier.mergeTypes domains ((inputUniverses.lookup key).getD 0) value
        (others.filterMap (HintInput.get? · key)) a = merged at hhead ⊢
      obtain ⟨⟨m, bare⟩, a'⟩ := merged
      obtain ⟨ms, htail, hentries⟩ := ih (a := a') hhint
        (fun o ho k hk => hothers o ho k (List.mem_cons_of_mem _ hk))
        ⟨o, ho, fun k hk => hsecond k (List.mem_cons_of_mem _ hk)⟩
        fun p hp => (hP p hp).trans_le hhead.next_le
      refine ⟨m :: ms, ?_, fun e he => ?_⟩
      · have happend : Merges domains P L a _ (m :: ms) ((hint :: others).map
            (HintInput.row inputUniverses (key :: keys))) :=
          hhead.append hP htail fun row hrow => ?_
        · split <;> exact happend
        · obtain ⟨h, hh, rfl⟩ := List.mem_map.mp hrow
          refine ⟨[((inputUniverses.lookup key).getD 0, (h.get? key).getD key.ty)], ?_, _,
            List.mem_map_of_mem hh, rfl⟩
          refine List.mem_map.mpr ⟨(h.get? key).getD key.ty, ?_, rfl⟩
          rcases List.mem_cons.mp hh with rfl | hh
          · rw [hget]
            exact List.mem_cons_self
          · obtain ⟨w, hw⟩ := hvalues h hh
            rw [hw]
            exact List.mem_cons_of_mem _ (List.mem_filterMap.mpr ⟨h, hh, hw⟩)
      · rw [List.zip_cons_cons]
        split at he
        · exact List.mem_cons_of_mem _ (hentries e he)
        · rcases List.mem_cons.mp he with rfl | he
          · exact List.mem_cons_self
          · exact List.mem_cons_of_mem _ (hentries e he)

end Entries

/-! ### Possible answers -/

/-- A possible answer to a query with the given inputs: a definite or an uncertain one. -/
structure PossibleAnswer (inputUniverses : ParamUniverses) where
  result : QueryResult
  substitution : List SubstEntry
  possible : result.value = .maybe substitution ∨
    ∃ output modulo, result.value = .yes output substitution modulo
  nodup : (paramsOf result.boundVars).Nodup
  fresh : ∀ info ∈ result.boundVars, info.param ∉ inputUniverses.map Prod.fst
  builtOver : ∀ e ∈ substitution,
    e.value.Over (Visible inputUniverses result.boundVars) (ConstInput inputUniverses)

/-- The inputs of a query, and a number from which on parameters are free for its responses. -/
structure HintQuery where
  inputUniverses : ParamUniverses
  inputDomains : ParamDomains
  nextResponseParam : Nat
  free : ∀ p ∈ inputUniverses.map Prod.fst, p.index < nextResponseParam

namespace PossibleAnswer

variable {inputUniverses : ParamUniverses} (c : PossibleAnswer inputUniverses)

/-- The value of a query variable. -/
def value (key : AlphaEquivParam) : Option Ty := HintInput.get? ⟨c.substitution⟩ key

def universes : ParamUniverses :=
  c.result.boundVars.map (fun info => (info.param, info.relativeUniverse)) ++ inputUniverses

def domains (inputDomains : ParamDomains) : ParamDomains :=
  c.result.boundVars.map (fun info => (info.param, info.domain)) ++ inputDomains

/-- The answer is an instance of the hints: `σ` gives their variables types that turn all of them
into the answer's values.  The types are in the domains, and within the universes of the variables
if the answer's values are within those of the query's. -/
structure InstanceOf (inputDomains : ParamDomains) (boundVars : List ResponseVarInfo)
    (hints : List SubstEntry) (σ : AlphaEquivParam → Ty) : Prop where
  fixes : ∀ p, p ∉ paramsOf boundVars → σ p = p.ty
  equal : ∀ e ∈ hints, c.value e.key = some (e.value.instantiate σ)
  builtOver : ∀ info ∈ boundVars,
    (σ info.param).Over (Visible inputUniverses c.result.boundVars) (ConstInput inputUniverses)
  domain : ∀ info ∈ boundVars,
    typeSatisfiesDomain (σ info.param) info.domain (c.domains inputDomains) = true
  ceiling : (∀ key t, c.value key = some t →
      t.Within c.universes ((inputUniverses.lookup key).getD 0)) →
    ∀ info ∈ boundVars, (σ info.param).Within c.universes info.relativeUniverse

/-- The hint that a possible answer becomes, renamed apart. -/
def hint (n : Nat) : HintInput :=
  ⟨c.substitution.map fun e => ⟨e.key, e.value.instantiate (renamed c.result.boundVars n)⟩⟩

theorem get?_hint (n : Nat) (key : AlphaEquivParam) :
    (c.hint n).get? key = (c.value key).map (Ty.instantiate (renamed c.result.boundVars n)) := by
  rw [HintInput.get?, value, HintInput.get?, hint, ← List.map_reverse, List.find?_map,
    Option.map_map, Option.map_map]
  rfl

theorem over_of_value {key : AlphaEquivParam} {t : Ty} (h : c.value key = some t) :
    t.Over (Visible inputUniverses c.result.boundVars) (ConstInput inputUniverses) := by
  obtain ⟨e, he, rfl⟩ := Option.map_eq_some_iff.mp h
  exact c.builtOver e (List.mem_reverse.mp (List.mem_of_find?_eq_some he))

/-- The parameters of the renamed answer. -/
def Renamed (n : Nat) (p : AlphaEquivParam) : Prop :=
  p ∈ inputUniverses.map Prod.fst ∨ p ∈ (renamedVars c.result.boundVars n).map Prod.snd

theorem renamed_of_over {t : Ty} {n : Nat}
    (h : t.Over (Visible inputUniverses c.result.boundVars) (ConstInput inputUniverses)) :
    (t.instantiate (renamed c.result.boundVars n)).Over (c.Renamed n)
      (ConstInput inputUniverses) := by
  refine h.instantiate fun p hp => ?_
  by_cases hb : p ∈ c.result.boundVars.map ResponseVarInfo.param
  · obtain ⟨info, hi, rfl⟩ := List.mem_map.mp hb
    obtain ⟨q, hq⟩ := exists_renamedVars (n := n) hi
    rw [renamed_of_mem c.nodup hq]
    exact Ty.over_param.mpr (.inr (List.mem_map_of_mem hq))
  · rw [renamed_of_notMem hb]
    exact Ty.over_param.mpr (.inl (hp.resolve_right hb))

end PossibleAnswer

/-- The possible answers with the numbers from which they are renamed. -/
def numberedFrom {inputUniverses : ParamUniverses} :
    List (PossibleAnswer inputUniverses) → Nat → List (PossibleAnswer inputUniverses × Nat)
  | [], _ => []
  | c :: cs, n => (c, n) :: numberedFrom cs (n + c.result.boundVars.length)

section Collect

variable {inputUniverses : ParamUniverses} {c : PossibleAnswer inputUniverses} {n k : Nat}

theorem le_of_mem_numberedFrom {cs : List (PossibleAnswer inputUniverses)}
    (h : (c, k) ∈ numberedFrom cs n) : n ≤ k := by
  induction cs generalizing n with
  | nil => exact absurd h List.not_mem_nil
  | cons d ds ih =>
      rcases List.mem_cons.mp h with h | h
      · exact Nat.le_of_eq (Prod.mk.inj h).2.symm
      · exact Nat.le_of_add_right_le (ih h)

theorem numberedFrom_fst (cs : List (PossibleAnswer inputUniverses)) (n : Nat) :
    (numberedFrom cs n).map Prod.fst = cs := by
  induction cs generalizing n with
  | nil => rfl
  | cons c cs ih => rw [numberedFrom, List.map_cons, ih]

/-- What `collectHints` collects. -/
structure Collected (domains : ParamDomains) (cs : List (PossibleAnswer inputUniverses)) (n : Nat)
    (hints : List HintInput) (next : Nat) (domains' : ParamDomains) : Prop where
  hints_eq : hints = (numberedFrom cs n).map fun p => p.1.hint p.2
  le : n ≤ next
  last : ∀ c k, (c, k) ∈ numberedFrom cs n → k + c.result.boundVars.length ≤ next
  old : ∀ p, p.index < n → domains'.lookup p = domains.lookup p
  new : ∀ c k, (c, k) ∈ numberedFrom cs n → ∀ v ∈ renamedVars c.result.boundVars k,
    domains'.lookup v.2 = some v.1.domain

theorem collectHints_collected (cs : List (PossibleAnswer inputUniverses)) (n : Nat)
    (domains : ParamDomains) : ∃ hints next domains',
      collectHints (cs.map PossibleAnswer.result) n domains = (hints, next, domains') ∧
        Collected domains cs n hints next domains' := by
  induction cs generalizing n domains with
  | nil => exact ⟨[], n, domains, rfl, rfl, Nat.le_refl n, nofun, fun _ _ => rfl, nofun⟩
  | cons c cs ih =>
      obtain ⟨hints, next, domains', hrun, hc⟩ := ih (n + c.result.boundVars.length)
        ((renamedVars c.result.boundVars n).map (fun p => (p.2, p.1.domain)) ++ domains)
      have hcopy : copySubstitution (renamingOf (renamedVars c.result.boundVars n)) c.substitution =
          (c.hint n).entries := by
        rw [copySubstitution, copyTy_renamingOf, PossibleAnswer.hint]
      have hstep : collectHints ((c :: cs).map PossibleAnswer.result) n domains =
          (c.hint n :: hints, next, domains') := by
        rw [List.map_cons, collectHints]
        rcases c.possible with h | ⟨o, m, h⟩
        · rw [h]
          simp only [hrun, hcopy]
        · rw [h]
          simp only [hrun, hcopy]
      refine ⟨_, _, _, hstep, ?_, (Nat.le_add_right ..).trans hc.le, fun d k hd => ?_,
        fun p hp => ?_, fun d k hd v hv => ?_⟩
      · rw [hc.hints_eq, numberedFrom, List.map_cons]
      · rcases List.mem_cons.mp hd with hd | hd
        · obtain ⟨rfl, rfl⟩ := Prod.mk.inj hd
          exact hc.le
        · exact hc.last d k hd
      · rw [hc.old p (hp.trans_le (Nat.le_add_right ..)), List.lookup_append,
          lookup_renamedVars_of_notMem _ (notMem_renamedVars hp), Option.none_or]
      · rcases List.mem_cons.mp hd with hd | hd
        · obtain ⟨rfl, rfl⟩ := Prod.mk.inj hd
          rw [hc.old _ (index_renamedVars hv).2, List.lookup_append, lookup_renamedVars _ hv,
            Option.some_or]
        · exact hc.new d k hd v hv

end Collect

/-! ### The merged answer -/

theorem termsMention_eq_any {p : AlphaEquivParam} (ts : List (Terms.Term Skeleton InferVarIndex)) :
    termsMention p ts = ts.any (termMentions p) := by
  induction ts with
  | nil => rfl
  | cons t ts ih => rw [termsMention, ih, List.any_cons]

/-- The parameters of a type are the ones it mentions. -/
theorem over_mentioned {P L : AlphaEquivParam → Prop} {t : Ty} (h : t.Over P L) :
    t.Over (fun p => P p ∧ termMentions p t.term = true) L := by
  induction t using Ty.induction with
  | step t ih =>
      rcases t.cases_param with ht | ⟨x, rfl⟩ | ⟨p, rfl⟩ | ⟨q, rfl, hq⟩
      · obtain ⟨hs, hc⟩ := (Ty.over_inner ht).mp h
        refine (Ty.over_inner ht).mpr ⟨Skeleton.Over.of_inner ht hs, fun c hm => ?_⟩
        refine (ih c hm (hc c hm)).imp (fun p hp => ⟨hp.1, ?_⟩) fun _ => id
        rw [Ty.term_eq ht.rigid, termMentions, termsMention_eq_any, List.any_map, Bool.or_eq_true]
        exact .inr (List.any_eq_true.mpr ⟨c, hm, hp.2⟩)
      · exact absurd h (Ty.not_over_inferVar x)
      · refine Ty.over_param.mpr ⟨Ty.over_param.mp h, ?_⟩
        have hterm : p.ty.term = .node (.param (.alphaEquiv p)) [] := Ty.term_eq trivial
        rw [hterm, termMentions]
        simp
      · exact absurd h (Ty.not_over_foreign hq)

theorem inherited_instantiate {P L : AlphaEquivParam → Prop} (σ : AlphaEquivParam → Ty) :
    Inherited fun t => (t.instantiate σ).Over P L := by
  intro t h c hc
  rcases t.cases_leaf with ht | ⟨x, rfl⟩ | ⟨p, rfl⟩
  · refine inherited_over _ h _ ?_
    rw [Ty.decompose_instantiate ht]
    exact List.mem_map_of_mem hc
  all_goals exact absurd hc List.not_mem_nil

section Answer

variable {q : HintQuery} {c : PossibleAnswer q.inputUniverses} {k : Nat}
  {ws used : List ResponseVarInfo} {merged : List SubstEntry} {τ : AlphaEquivParam → Ty}

/-- The bound variables of the merged answer. -/
def mergedVars (used : List ResponseVarInfo) (n : Nat) : List ResponseVarInfo :=
  (renamedVars used n).map fun p => { p.1 with param := p.2 }

theorem paramsOf_mergedVars (used : List ResponseVarInfo) (n : Nat) :
    paramsOf (mergedVars used n) = (renamedVars used n).map Prod.snd := by
  rw [paramsOf, mergedVars, List.map_map]
  rfl

/-- What the variables of the merged answer stand for in a possible answer. -/
def readBack (q : HintQuery) (c : PossibleAnswer q.inputUniverses) (k : Nat)
    (used : List ResponseVarInfo) (τ : AlphaEquivParam → Ty) (p : AlphaEquivParam) : Ty :=
  if p ∈ paramsOf (mergedVars used q.nextResponseParam) then
    ((restored used q.nextResponseParam p).instantiate τ).instantiate
      (restored c.result.boundVars k)
  else p.ty

theorem readBack_of_mem {v : ResponseVarInfo × AlphaEquivParam}
    (hv : v ∈ renamedVars used q.nextResponseParam) :
    readBack q c k used τ v.2 = (τ v.1.param).instantiate (restored c.result.boundVars k) := by
  rw [readBack, paramsOf_mergedVars, if_pos (List.mem_map_of_mem hv), restored_of_mem hv,
    Ty.instantiate_param]

/-- A merged value under its new names, read back. -/
theorem instantiate_readBack {t : Ty} (hnd : (paramsOf used).Nodup)
    (hτ : ∀ p, p.index < q.nextResponseParam → τ p = p.ty) (hk : q.nextResponseParam ≤ k)
    (ht : t.Over (fun p => p ∈ q.inputUniverses.map Prod.fst ∨ p ∈ paramsOf used)
      (ConstInput q.inputUniverses)) :
    (t.instantiate (renamed used q.nextResponseParam)).instantiate (readBack q c k used τ) =
      (t.instantiate τ).instantiate (restored c.result.boundVars k) := by
  rw [Ty.instantiate_instantiate, Ty.instantiate_instantiate]
  refine Ty.instantiate_congr ht fun p hp => ?_
  by_cases hu : p ∈ paramsOf used
  · obtain ⟨info, hi, rfl⟩ := List.mem_map.mp hu
    obtain ⟨r, hr⟩ := exists_renamedVars (n := q.nextResponseParam) hi
    rw [renamed_of_mem hnd hr, Ty.instantiate_param, readBack_of_mem hr]
  · have hlt := q.free p (hp.resolve_right hu)
    have hbound : p ∉ paramsOf (mergedVars used q.nextResponseParam) := by
      rw [paramsOf_mergedVars]
      exact notMem_renamedVars hlt
    rw [renamed_of_notMem hu, Ty.instantiate_param, readBack, if_neg hbound, hτ p hlt,
      Ty.instantiate_param, restored_of_notMem (notMem_renamedVars (hlt.trans_le hk))]

/-- A parameter of a renamed answer, under its old name, has its old domain. -/
theorem PossibleAnswer.Renamed.old {p : AlphaEquivParam} {domains : ParamDomains}
    (h : c.Renamed k p) (hk : q.nextResponseParam ≤ k)
    (hold : ∀ p, p.index < q.nextResponseParam → domains.lookup p = q.inputDomains.lookup p)
    (hnew : ∀ v ∈ renamedVars c.result.boundVars k, domains.lookup v.2 = some v.1.domain) :
    ∃ p' : AlphaEquivParam, restored c.result.boundVars k p = p'.ty ∧
      domains.lookup p = (c.domains q.inputDomains).lookup p' := by
  rcases h with h | h
  · have hlt := q.free p h
    have hfresh : p ∉ paramsOf c.result.boundVars := fun hm => by
      obtain ⟨info, hi, rfl⟩ := List.mem_map.mp hm
      exact c.fresh info hi h
    refine ⟨p, restored_of_notMem (notMem_renamedVars (hlt.trans_le hk)), ?_⟩
    rw [hold p hlt, PossibleAnswer.domains, lookup_input _ _ hfresh]
  · obtain ⟨v, hv, rfl⟩ := List.mem_map.mp h
    have hi : v.1 ∈ c.result.boundVars := by
      have hm := List.mem_map_of_mem (f := Prod.fst) hv
      rwa [renamedVars_fst] at hm
    refine ⟨v.1.param, restored_of_mem hv, ?_⟩
    rw [hnew v hv, PossibleAnswer.domains, lookup_boundVars c.nodup _ _ hi]

/-- The values of one answer for some keys. -/
theorem mem_row {keys : List AlphaEquivParam} {e : Universe × Ty}
    (hkeys : ∀ key ∈ keys, (c.value key).isSome)
    (he : e ∈ HintInput.row q.inputUniverses keys (c.hint k)) :
    ∃ key t, c.value key = some t ∧ e.1 = (q.inputUniverses.lookup key).getD 0 ∧
      e.2 = t.instantiate (renamed c.result.boundVars k) := by
  obtain ⟨key, hkey, rfl⟩ := List.mem_map.mp he
  obtain ⟨t, ht⟩ := Option.isSome_iff_exists.mp (hkeys key hkey)
  refine ⟨key, t, ht, rfl, ?_⟩
  rw [c.get?_hint, ht]
  rfl

theorem restored_value {t : Ty} (hk : q.nextResponseParam ≤ k)
    (ht : t.Over (Visible q.inputUniverses c.result.boundVars) (ConstInput q.inputUniverses)) :
    (t.instantiate (renamed c.result.boundVars k)).instantiate (restored c.result.boundVars k) =
      t := by
  rw [Ty.instantiate_instantiate]
  exact Ty.instantiate_eq_self ht fun p hp =>
    restored_renamed c.nodup (hp.symm.imp_right fun hp => (q.free p hp).trans_le hk)

/-- A row of values read back is a possible answer as an instance of the merged hints. -/
theorem RowInstance.instanceOf {domains : ParamDomains} {keys : List AlphaEquivParam}
    {ms : List Ty} (hτ : RowInstance domains ws ms
      (HintInput.row q.inputUniverses keys (c.hint k)) τ)
    (hws : ∀ p ∈ paramsOf ws, q.nextResponseParam ≤ p.index)
    (hused : ∀ info ∈ used, info ∈ ws) (hnd : (paramsOf used).Nodup)
    (hkeys : ∀ key ∈ keys, (c.value key).isSome)
    (hmerged : ∀ e ∈ merged, (e.key, e.value) ∈ keys.zip ms)
    (hover : ∀ e ∈ merged, e.value.Over (fun p => p ∈ q.inputUniverses.map Prod.fst ∨
      p ∈ paramsOf used) (ConstInput q.inputUniverses))
    (hk : q.nextResponseParam ≤ k)
    (hold : ∀ p, p.index < q.nextResponseParam → domains.lookup p = q.inputDomains.lookup p)
    (hnew : ∀ v ∈ renamedVars c.result.boundVars k, domains.lookup v.2 = some v.1.domain) :
    c.InstanceOf q.inputDomains (mergedVars used q.nextResponseParam)
      (merged.map fun e => ⟨e.key, e.value.instantiate (renamed used q.nextResponseParam)⟩)
      (readBack q c k used τ) := by
  have hfixes : ∀ p, p.index < q.nextResponseParam → τ p = p.ty := fun p hp =>
    hτ.fixes p fun hm => absurd (hws p hm) (Nat.not_le.mpr hp)
  have hvars : ∀ info ∈ mergedVars used q.nextResponseParam, ∃ w ∈ ws,
      readBack q c k used τ info.param =
        (τ w.param).instantiate (restored c.result.boundVars k) ∧
      info.domain = w.domain ∧ info.relativeUniverse = w.relativeUniverse := fun info hi => by
    obtain ⟨v, hv, rfl⟩ := List.mem_map.mp hi
    have hm := List.mem_map_of_mem (f := Prod.fst) hv
    rw [renamedVars_fst] at hm
    exact ⟨v.1, hused v.1 hm, readBack_of_mem hv, rfl, rfl⟩
  refine ⟨fun p hp => if_neg hp, fun e' he' => ?_, fun info hi => ?_, fun info hi => ?_,
    fun hceiling info hi => ?_⟩
  · obtain ⟨e, he, rfl⟩ := List.mem_map.mp he'
    obtain ⟨i, hi⟩ := List.mem_iff_getElem?.mp (hmerged e he)
    obtain ⟨hkey, hms⟩ := List.getElem?_zip_eq_some.mp hi
    obtain ⟨t, ht⟩ := Option.isSome_iff_exists.mp (hkeys e.key (List.mem_of_getElem? hkey))
    rw [ht, instantiate_readBack hnd hfixes hk (hover e he)]
    have hequal := congrArg (·[i]?) hτ.equal
    simp only [List.getElem?_map, hms, HintInput.row, hkey, Option.map_some, c.get?_hint, ht,
      Option.getD_some, Option.some.injEq] at hequal
    rw [hequal, restored_value hk (c.over_of_value ht)]
  · obtain ⟨w, hw, heq, -, -⟩ := hvars info hi
    rw [heq]
    refine hτ.part (fun _ t => (t.instantiate (restored c.result.boundVars k)).Over
      (Visible q.inputUniverses c.result.boundVars) (ConstInput q.inputUniverses))
      (fun _ => inherited_instantiate _) (fun e he => ?_) w hw
    obtain ⟨key, t, ht, -, he⟩ := mem_row hkeys he
    rw [he, restored_value hk (c.over_of_value ht)]
    exact c.over_of_value ht
  · obtain ⟨w, hw, heq, hd, -⟩ := hvars info hi
    have hrenamed : (τ w.param).Over (c.Renamed k) (ConstInput q.inputUniverses) := by
      refine hτ.part (fun _ t => t.Over (c.Renamed k) (ConstInput q.inputUniverses))
        (fun _ => inherited_over) (fun e he => ?_) w hw
      obtain ⟨key, t, ht, -, he⟩ := mem_row hkeys he
      rw [he]
      exact c.renamed_of_over (c.over_of_value ht)
    have hdomain := hτ.domain w hw
    rw [heq, hd]
    generalize τ w.param = t at hrenamed hdomain
    rcases t.cases_param with ht | ⟨x, rfl⟩ | ⟨p, rfl⟩ | ⟨p, rfl, hp⟩
    · rw [typeSatisfiesDomain_inner (ht.instantiate _)]
      have hany : explicitParameterDomain domains t = .any := by
        rcases t with _ | _ | _ | _ | _ | _ | _ | (_ | _ | _) | _ | _ | _ | _ | _ | _ | _ | _ | _ <;>
          first | exact ht.elim | rfl
      rw [hany] at hdomain
      cases hwd : w.domain with
      | any => rfl
      | integer | float =>
          rw [hwd] at hdomain
          cases hdomain
    · exact absurd hrenamed (Ty.not_over_inferVar x)
    · obtain ⟨p', hp', hlookup⟩ := (Ty.over_param.mp hrenamed).old hk hold hnew
      rw [Ty.instantiate_param, hp', typeSatisfiesDomain_param, ← hlookup]
      exact hdomain
    · exact absurd hrenamed (Ty.not_over_foreign hp)
  · obtain ⟨w, hw, heq, -, hu⟩ := hvars info hi
    rw [heq, hu]
    refine hτ.part (fun u t => (t.instantiate (restored c.result.boundVars k)).Within c.universes u)
      (fun _ => inherited_instantiate _) (fun e he => ?_) w hw
    obtain ⟨key, t, ht, he₁, he₂⟩ := mem_row hkeys he
    rw [he₁, he₂, restored_value hk (c.over_of_value ht)]
    exact hceiling key t ht

end Answer

theorem mem_commonKeys {hint : HintInput} {others : List HintInput} {key : AlphaEquivParam}
    (h : key ∈ commonKeys hint others) :
    (hint.get? key).isSome ∧ ∀ o ∈ others, (o.get? key).isSome := by
  rw [commonKeys, List.mem_insertionSort, List.mem_filter, List.mem_dedup] at h
  obtain ⟨hkey, hall⟩ := h
  refine ⟨?_, List.all_eq_true.mp hall⟩
  obtain ⟨e, he, rfl⟩ := List.mem_map.mp hkey
  rw [HintInput.get?, Option.isSome_map, List.find?_isSome]
  exact ⟨e, List.mem_reverse.mpr he, by simp⟩

section Merged

variable (q : HintQuery)

/-- The answer made of some hints. -/
@[grind =] def answerOf (domains : ParamDomains) (next : Nat) (hint : HintInput)
    (others : List HintInput) : QueryResult :=
  let (merged, a) := mergeEntries q.inputUniverses domains hint others (commonKeys hint others)
    ⟨next, []⟩
  let used := collectUsedWitnesses merged a.witnesses
  ⟨mergedVars used q.nextResponseParam,
    .maybe (merged.map fun e => ⟨e.key, e.value.instantiate (renamed used q.nextResponseParam)⟩)⟩

theorem mergeHints_eq {candidates : List QueryResult} {include_ : Bool} {hint : HintInput}
    {hints others : List HintInput} {next : Nat} {domains : ParamDomains}
    (hcollect : collectHints candidates q.nextResponseParam q.inputDomains = (hints, next, domains))
    (hhints : (hints ++ if include_ then [⟨[]⟩] else []) = hint :: others) :
    mergeHints q.inputUniverses q.nextResponseParam q.inputDomains candidates include_ =
      answerOf q domains next hint others := by
  rw [mergeHints, hcollect]
  simp only [hhints, answerOf, copySubstitution, copyTy_renamingOf, mergedVars]

variable {q}

/-- What two answers renamed apart have in common are the inputs. -/
theorem common_inputs {c d : PossibleAnswer q.inputUniverses} {k m : Nat}
    (hkm : k + c.result.boundVars.length ≤ m) {p : AlphaEquivParam} (hc : c.Renamed k p)
    (hd : d.Renamed m p) : p ∈ q.inputUniverses.map Prod.fst := by
  rcases hc with hc | hc
  · exact hc
  · refine hd.resolve_right fun hd => ?_
    obtain ⟨v, hv, rfl⟩ := List.mem_map.mp hc
    obtain ⟨w, hw, heq⟩ := List.mem_map.mp hd
    have hlt := (index_renamedVars hv).2
    have hle := (index_renamedVars hw).1
    rw [heq] at hle
    exact absurd (hlt.trans_le hkm) (Nat.not_lt.mpr hle)

/-- The merged answer of two or more answers names inputs and its own variables, and all of them
are instances of it. -/
def SoundFor (q : HintQuery) (candidates : List (PossibleAnswer q.inputUniverses))
    (merged : QueryResult) : Prop :=
  ∃ boundVars hints, merged = ⟨boundVars, .maybe hints⟩ ∧
    (∀ e ∈ hints, e.value.Over (Visible q.inputUniverses boundVars)
      (ConstInput q.inputUniverses)) ∧
    ∀ c ∈ candidates, ∃ σ, c.InstanceOf q.inputDomains boundVars hints σ

theorem answerOf_sound {c d : PossibleAnswer q.inputUniverses}
    {rest : List (PossibleAnswer q.inputUniverses)} {hints : List HintInput} {next : Nat}
    {domains : ParamDomains}
    (hc : Collected q.inputDomains (c :: d :: rest) q.nextResponseParam hints next domains)
    {others : List HintInput} (hhints : hints = c.hint q.nextResponseParam :: others) :
    SoundFor q (c :: d :: rest)
      (answerOf q domains next (c.hint q.nextResponseParam) others) := by
  have hsecond : d.hint (q.nextResponseParam + c.result.boundVars.length) ∈ others := by
    have heq := hhints.symm.trans hc.hints_eq
    rw [numberedFrom, List.map_cons, List.cons.injEq, numberedFrom, List.map_cons] at heq
    rw [heq.2]
    exact List.mem_cons_self
  have hle : q.nextResponseParam ≤ next := hc.le
  have hfirst : ∀ key ∈ commonKeys (c.hint q.nextResponseParam) others,
      ∃ t, (c.hint q.nextResponseParam).get? key = some t ∧
        t.Over (c.Renamed q.nextResponseParam) (ConstInput q.inputUniverses) := fun key hkey => by
    obtain ⟨t, ht⟩ := Option.isSome_iff_exists.mp (mem_commonKeys hkey).1
    refine ⟨t, ht, ?_⟩
    rw [c.get?_hint] at ht
    obtain ⟨u, hu, rfl⟩ := Option.map_eq_some_iff.mp ht
    exact c.renamed_of_over (c.over_of_value hu)
  have hother : ∀ key t, (d.hint (q.nextResponseParam + c.result.boundVars.length)).get? key = some t →
      t.Over (d.Renamed (q.nextResponseParam + c.result.boundVars.length))
        (ConstInput q.inputUniverses) := fun key t ht => by
    rw [d.get?_hint] at ht
    obtain ⟨u, hu, rfl⟩ := Option.map_eq_some_iff.mp ht
    exact d.renamed_of_over (d.over_of_value hu)
  obtain ⟨ms, ⟨ws, hcreated, hover, hrows⟩, hmerged⟩ :=
    @mergeEntries_merges q.inputUniverses domains _ _ _ _ _ _ (fun p => common_inputs (Nat.le_refl _))
      _ ⟨next, []⟩ hfirst (fun o ho key hkey => (mem_commonKeys hkey).2 o ho)
      ⟨_, hsecond, fun key _ => hother key⟩ fun p hp => (q.free p hp).trans_le hle
  rw [answerOf]
  generalize mergeEntries q.inputUniverses domains (c.hint q.nextResponseParam) others
    (commonKeys (c.hint q.nextResponseParam) others) ⟨next, []⟩ = run at hcreated hmerged ⊢
  obtain ⟨merged, a⟩ := run
  have hwitnesses : a.witnesses = ws := hcreated.witnesses
  have hused : ∀ info ∈ collectUsedWitnesses merged a.witnesses, info ∈ ws := fun info hi =>
    hwitnesses ▸ (List.mem_filter.mp hi).1
  have hnd : (paramsOf (collectUsedWitnesses merged a.witnesses)).Nodup := by
    have hsub : (paramsOf (collectUsedWitnesses merged a.witnesses)).Sublist (paramsOf ws) := by
      rw [← hwitnesses]
      exact List.Sublist.map _ List.filter_sublist
    exact hcreated.nodup.sublist hsub
  have hvalues : ∀ e ∈ merged, e.value.Over (fun p => p ∈ q.inputUniverses.map Prod.fst ∨
      p ∈ paramsOf (collectUsedWitnesses merged a.witnesses)) (ConstInput q.inputUniverses) := by
    intro e he
    refine (over_mentioned (hover e.value (List.of_mem_zip (hmerged e he)).2)).imp
      (fun p hp => hp.1.imp_right fun hm => ?_) fun _ => id
    obtain ⟨info, hi, rfl⟩ := List.mem_map.mp hm
    refine List.mem_map_of_mem (List.mem_filter.mpr ⟨hwitnesses ▸ hi, ?_⟩)
    exact List.any_eq_true.mpr ⟨e, he, hp.2⟩
  refine ⟨_, _, rfl, fun e' he' => ?_, fun b hb => ?_⟩
  · obtain ⟨e, he, rfl⟩ := List.mem_map.mp he'
    refine (hvalues e he).instantiate fun p hp => ?_
    by_cases hu : p ∈ paramsOf (collectUsedWitnesses merged a.witnesses)
    · obtain ⟨info, hi, rfl⟩ := List.mem_map.mp hu
      obtain ⟨r, hr⟩ := exists_renamedVars (n := q.nextResponseParam) hi
      rw [renamed_of_mem hnd hr, Ty.over_param]
      refine .inr ?_
      rw [← paramsOf, paramsOf_mergedVars]
      exact List.mem_map_of_mem hr
    · rw [renamed_of_notMem hu, Ty.over_param]
      exact .inl (hp.resolve_right hu)
  · rw [← numberedFrom_fst (c :: d :: rest) q.nextResponseParam] at hb
    obtain ⟨⟨b, k⟩, hmem, rfl⟩ := List.mem_map.mp hb
    have hhint : b.hint k ∈ c.hint q.nextResponseParam :: others := by
      rw [← hhints, hc.hints_eq]
      exact List.mem_map.mpr ⟨_, hmem, rfl⟩
    obtain ⟨τ, hτ⟩ := hrows _ (List.mem_map_of_mem hhint)
    refine ⟨_, hτ.instanceOf (fun p hp => hle.trans (hcreated.mem hp).1) hused hnd
      (fun key hkey => ?_) hmerged hvalues (le_of_mem_numberedFrom hmem) hc.old (hc.new b k hmem)⟩
    have hsome : ((b.hint k).get? key).isSome := by
      rcases List.mem_cons.mp hhint with h | h
      · rw [h]
        exact (mem_commonKeys hkey).1
      · exact (mem_commonKeys hkey).2 _ h
    rwa [b.get?_hint, Option.isSome_map] at hsome

/-- Without common keys there are no hints. -/
theorem soundFor_empty (candidates : List (PossibleAnswer q.inputUniverses)) :
    SoundFor q candidates emptyMaybe :=
  ⟨[], [], rfl, nofun, fun _ _ => ⟨AlphaEquivParam.ty, fun _ _ => rfl, nofun, nofun, nofun,
    fun _ => nofun⟩⟩

theorem answerOf_empty {hint : HintInput} {others : List HintInput} {next : Nat}
    {domains : ParamDomains} (h : hint = ⟨[]⟩ ∨ ⟨[]⟩ ∈ others) :
    answerOf q domains next hint others = emptyMaybe := by
  have hkeys : commonKeys hint others = [] := by
    refine List.eq_nil_iff_forall_not_mem.mpr fun key hkey => ?_
    obtain ⟨hhint, hothers⟩ := mem_commonKeys hkey
    rcases h with rfl | h
    · exact absurd hhint Bool.false_ne_true
    · exact absurd (hothers _ h) Bool.false_ne_true
  rw [answerOf, hkeys]
  rfl

/-- The hints of possible answers are instances of the merged hints, all of them at once, and no
variable of one answer is left in them, for several answers or an incomplete list of them. -/
theorem mergeHints_sound (q : HintQuery) (candidates : List (PossibleAnswer q.inputUniverses))
    (includeUnconstrainedPossible : Bool)
    (h : 2 ≤ candidates.length ∨ includeUnconstrainedPossible = true) :
    SoundFor q candidates (mergeHints q.inputUniverses q.nextResponseParam q.inputDomains
      (candidates.map PossibleAnswer.result) includeUnconstrainedPossible) := by
  obtain ⟨hints, next, domains, hrun, hc⟩ :=
    collectHints_collected candidates q.nextResponseParam q.inputDomains
  cases includeUnconstrainedPossible with
  | true =>
      cases hints with
      | nil =>
          rw [mergeHints_eq q hrun rfl, answerOf_empty (.inl rfl)]
          exact soundFor_empty candidates
      | cons hint hints =>
          have hlast : hint :: hints ++ (if true = true then [⟨[]⟩] else []) =
              hint :: (hints ++ [⟨[]⟩]) := rfl
          rw [mergeHints_eq q hrun hlast,
            answerOf_empty (.inr (List.mem_append_right _ List.mem_cons_self))]
          exact soundFor_empty candidates
  | false =>
      have hlen : 2 ≤ candidates.length := h.resolve_right nofun
      match candidates, hlen, hrun, hc with
      | c :: d :: rest, _, hrun, hc =>
          have hhints := hc.hints_eq
          rw [numberedFrom, List.map_cons] at hhints
          have hall : hints ++ (if false = true then [⟨[]⟩] else []) = _ :=
            (List.append_nil _).trans hhints
          rw [mergeHints_eq q hrun hall]
          exact answerOf_sound hc hhints

end Merged

/-! ### What merged hints are not -/

/-- Variables that stand for the same types in all answers are one variable. -/
def SharesVariables (q : HintQuery) (candidates : List (PossibleAnswer q.inputUniverses))
    (merged : QueryResult) : Prop :=
  ∀ hints, merged.value = .maybe hints → ∀ v ∈ merged.boundVars, ∀ w ∈ merged.boundVars,
    (∀ c ∈ candidates, ∀ σ, c.InstanceOf q.inputDomains merged.boundVars hints σ →
      σ v.param = σ w.param) → v = w

/-- A query about one type. -/
def typeQuery : HintQuery where
  inputUniverses := [(⟨.type, 0⟩, 0)]
  inputDomains := []
  nextResponseParam := 1
  free := by simp

/-- The type may be a pair of one type with itself. -/
def pairAnswer (t : Ty) (ht : t.Over (Visible typeQuery.inputUniverses [])
    (ConstInput typeQuery.inputUniverses)) : PossibleAnswer typeQuery.inputUniverses where
  result := ⟨[], .maybe [⟨⟨.type, 0⟩, .tuple [t, t]⟩]⟩
  substitution := [⟨⟨.type, 0⟩, .tuple [t, t]⟩]
  possible := .inl rfl
  nodup := List.nodup_nil
  fresh := nofun
  builtOver e he := by
    obtain rfl := List.mem_singleton.mp he
    refine (Ty.over_inner (by trivial)).mpr ⟨trivial, fun c hm => ?_⟩
    have hct : c = t := by simpa [decompose] using hm
    rw [hct]
    exact ht

theorem leaf_over {t : Ty} {P L : AlphaEquivParam → Prop} (ht : t.Inner)
    (hc : (decompose t).children = []) (hs : (decompose t).skeleton.Over P L) : t.Over P L :=
  (Ty.over_inner ht).mpr ⟨hs, by simp [hc]⟩

/-- The type may be any one. -/
def anyAnswer : PossibleAnswer typeQuery.inputUniverses where
  result := ⟨[⟨⟨.type, 1⟩, .type, 0, .any⟩], .maybe [⟨⟨.type, 0⟩, AlphaEquivParam.ty ⟨.type, 1⟩⟩]⟩
  substitution := [⟨⟨.type, 0⟩, AlphaEquivParam.ty ⟨.type, 1⟩⟩]
  possible := .inl rfl
  nodup := List.nodup_singleton _
  fresh := by decide
  builtOver e he := by
    rw [List.mem_singleton.mp he, Ty.over_param]
    exact .inr List.mem_cons_self

theorem mergeHints_sound_pair : SoundFor typeQuery
    [pairAnswer (.int .i32) (leaf_over trivial rfl trivial),
      pairAnswer .bool (leaf_over trivial rfl trivial)]
    (mergeHints typeQuery.inputUniverses 1 []
      [⟨[], .maybe [⟨⟨.type, 0⟩, .tuple [.int .i32, .int .i32]⟩]⟩,
        ⟨[], .maybe [⟨⟨.type, 0⟩, .tuple [.bool, .bool]⟩]⟩] false) :=
  mergeHints_sound typeQuery _ false (.inl (Nat.le_refl 2))

/-- Each position where answers differ gets a variable of its own, and the variables of a single
answer are left in its hints. -/
theorem mergeHints_unshared :
    (∃ c d : PossibleAnswer typeQuery.inputUniverses, ¬SharesVariables typeQuery [c, d]
      (mergeHints typeQuery.inputUniverses 1 [] [c.result, d.result] false)) ∧
    ∃ c : PossibleAnswer typeQuery.inputUniverses,
      ¬SoundFor typeQuery [c] (mergeHints typeQuery.inputUniverses 1 [] [c.result] false) := by
  constructor
  · refine ⟨pairAnswer (.int .i32) (leaf_over trivial rfl trivial),
      pairAnswer .bool (leaf_over trivial rfl trivial), fun h => ?_⟩
    have hshared := h _ (by rfl) ⟨⟨.type, 1⟩, .type, 0, .any⟩ (by decide)
      ⟨⟨.type, 2⟩, .type, 0, .any⟩ (by decide) ?_
    · cases hshared
    · -- both stand for the one type of either pair
      intro c hc σ hσ
      have hequal := hσ.equal _ List.mem_cons_self
      have hboth : ∀ t : Ty, c.value ⟨.type, 0⟩ = some (.tuple [t, t]) →
          σ ⟨.type, 1⟩ = σ ⟨.type, 2⟩ := fun t ht => by
        have htuple : Ty.tuple [t, t] = .tuple [σ ⟨.type, 1⟩, σ ⟨.type, 2⟩] :=
          Option.some.inj (ht.symm.trans hequal)
        simp only [Ty.tuple.injEq, List.cons.injEq, and_true] at htuple
        exact htuple.1.symm.trans htuple.2
      rcases List.mem_pair.mp hc with rfl | rfl
      · exact hboth _ rfl
      · exact hboth _ rfl
  · refine ⟨anyAnswer, fun ⟨boundVars, hints, hmerged, hover, _⟩ => ?_⟩
    have hrun : mergeHints typeQuery.inputUniverses 1 [] [anyAnswer.result] false =
        ⟨[], .maybe [⟨⟨.type, 0⟩, AlphaEquivParam.ty ⟨.type, 1⟩⟩]⟩ := rfl
    rw [hrun] at hmerged
    cases hmerged
    rcases Ty.over_param.mp (hover _ List.mem_cons_self) with h | h
    · exact absurd h (by decide)
    · exact absurd h List.not_mem_nil

end Sage
