import Sage.Solve.Merge
import Sage.Solve.Validation

/-!
# Solve — the answer of a trait query does not depend on the schedule

The candidates of a trait query run as tasks of their own, and `solve_trait_frame` cancels those
that are left once one has answered unconditionally.  Every task extracts its answer from an
instance of the same query.

* `extracted_unconditional` — all unconditional answers to a query are the same one.
* `solveTraitFrame_schedule` — every order of completion gives the same merged answer.
-/

namespace Sage

open Grow

/-! ### Unconditional answers -/

section Extract

variable {state : QueryProofState} {version : Version} {e e' : ResponseExtractor}

theorem inner_of_mapChildrenM {σ : Type} {f : Ty → StateT σ Option Ty}
    {k : Const → StateT σ Option Const} {t u : Ty} {s s' : σ} (ht : t.Inner)
    (h : t.mapChildrenM f k s = some (u, s')) : u.Inner := by
  have : Std.Refl fun _ _ : σ => True := ⟨fun _ => trivial⟩
  have : IsTrans σ fun _ _ => True := ⟨fun _ _ _ _ _ => trivial⟩
  have hgrows : Grows (fun _ _ => True) (fun _ => True) (t.mapChildrenM f k) fun _ u =>
      Ty.Rebuilt (fun _ _ => True) (fun _ _ => True) t u :=
    Grows.mapChildrenM ht (fun _ _ _ => id) (fun _ _ _ _ _ _ _ => ⟨trivial, fun _ _ => trivial⟩)
      fun _ _ _ _ _ _ _ => ⟨trivial, fun _ _ => trivial⟩
  exact ((hgrows s trivial u s' h).2 s' trivial).inner

theorem ResponseExtractor.responseVar_param {index : InferVarIndex} {param : AlphaEquivParam}
    (hparam : param.index < e.nextResponseParam)
    (h : responseVar state version index e = some (param, e')) : e' = e := by
  rw [responseVar] at h
  split at h
  · exact (Prod.mk.inj (Option.some.inj h)).2.symm
  · -- A new parameter comes after all inputs.
    obtain ⟨rfl, -⟩ := Prod.mk.inj (Option.some.inj h)
    exact absurd hparam (Nat.lt_irrefl _)

theorem ResponseExtractor.copyTy_inner {fuel : Nat} {binders : Binders} {t : Ty}
    (h : (state.egraph.find version t).Inner) :
    copyTy state version (fuel + 1) binders t = (state.egraph.find version t).mapChildrenM
      (copyTy state version fuel binders) fun c => return copyConst binders c := by
  rw [copyTy]
  revert h
  cases state.egraph.find version t <;> first | exact fun h => h.elim | exact fun _ => rfl

/-- Copying a type to a parameter of the query meets no new variable. -/
theorem ResponseExtractor.copyTy_param {fuel : Nat} {binders : Binders} {t : Ty}
    {param : AlphaEquivParam} (hparam : param.index < e.nextResponseParam)
    (h : copyTy state version fuel binders t e = some (.param (.alphaEquiv param), e')) :
    e' = e := by
  cases fuel with
  | zero => exact nomatch h
  | succ fuel =>
      rcases (state.egraph.find version t).cases_leaf with hinner | ⟨x, hx⟩ | ⟨p, hp⟩
      · rw [copyTy_inner hinner] at h
        exact (inner_of_mapChildrenM hinner h).elim
      · rw [copyTy, hx] at h
        cases hclass : classInput state version (.inferVar x) with
        | some param =>
            simp only [hclass] at h
            exact (pure_eq_some.mp h).2
        | none =>
            simp only [hclass] at h
            obtain ⟨p, r, hvar, h⟩ := bind_eq_some.mp h
            obtain ⟨hp, rfl⟩ := pure_eq_some.mp h
            obtain rfl : param = p := by simpa using hp
            exact responseVar_param hparam hvar
      · rw [copyTy, hp] at h
        exact (pure_eq_some.mp h).2

theorem ResponseExtractor.extractEntry_none {fuel : Nat} {input : InputInstance}
    (hinput : input.param.index < e.nextResponseParam)
    (h : extractEntry state version fuel input e = some (none, e')) : e' = e := by
  rw [extractEntry] at h
  cases hrole : input.role with
  | rigidPlaceholder =>
      rw [hrole] at h
      exact (pure_eq_some.mp h).2
  | existentialInput =>
      rw [hrole] at h
      obtain ⟨value, t, hcopy, h⟩ := bind_eq_some.mp h
      by_cases hvalue : value = .param (.alphaEquiv input.param)
      · rw [if_pos hvalue] at h
        obtain ⟨-, rfl⟩ := pure_eq_some.mp h
        exact copyTy_param hinput (hvalue ▸ hcopy)
      · rw [if_neg hvalue] at h
        exact nomatch (pure_eq_some.mp h).1

/-- An empty substitution names no response variable. -/
theorem ResponseExtractor.extractSubstitution_nil {fuel : Nat}
    (hinputs : ∀ input ∈ state.inputs, input.param.index < e.nextResponseParam)
    (h : extractSubstitution state version fuel e = some ([], e')) : e' = e := by
  rw [extractSubstitution, bind_eq_some] at h
  obtain ⟨entries, t, hentries, h⟩ := h
  obtain ⟨hnil, rfl⟩ := pure_eq_some.mp h
  have hnone : ∀ entry ∈ entries, entry = none := fun entry hmem =>
    List.filterMap_eq_nil_iff.mp hnil.symm entry hmem
  generalize state.inputs = inputs at hinputs hentries
  clear hnil h
  induction inputs generalizing e entries with
  | nil =>
      rw [List.mapM_nil] at hentries
      exact (pure_eq_some.mp hentries).2
  | cons input inputs ih =>
      rw [List.mapM_cons] at hentries
      obtain ⟨entry, s, hentry, hentries⟩ := bind_eq_some.mp hentries
      obtain ⟨entries', s', hentries', hr⟩ := bind_eq_some.mp hentries
      obtain ⟨rfl, rfl⟩ := pure_eq_some.mp hr
      rw [hnone entry List.mem_cons_self] at hentry
      obtain rfl := extractEntry_none (hinputs input List.mem_cons_self) hentry
      exact ih entries' (fun other hmem => hnone other (List.mem_cons_of_mem _ hmem))
        (fun i hi => hinputs i (List.mem_cons_of_mem _ hi)) hentries'

/-- A traversal of a goal that leaves no conjunct leaves its state as it was. -/
theorem walk_conjuncts_nil {σ : Type} {w : Walker (StateT σ Option)} {b : Binders} {g h : Goal}
    {s t : σ} (hrun : g.walk w b s = some (h, t)) (hnil : h.conjuncts = []) : t = s := by
  have hconj : (Goal.conjuncts <$> g.walk w b) s = some ([], t) := map_eq_some.mpr ⟨h, hrun, hnil⟩
  rw [(Goal.walk_spliced w b g).2] at hconj
  obtain ⟨hs, hwalk, hflat⟩ := map_eq_some.mp hconj
  have hsingle := Goal.single_of_mem g.spliced
  generalize g.spliced.conjuncts = gs at hwalk hsingle
  cases gs with
  | nil =>
      rw [List.mapM_nil] at hwalk
      exact (pure_eq_some.mp hwalk).2
  | cons c cs =>
      -- A conjunct that is not a conjunction is copied to one.
      rw [List.mapM_cons] at hwalk
      obtain ⟨c', r, hc, hwalk⟩ := bind_eq_some.mp hwalk
      obtain ⟨cs', r', -, hwalk⟩ := bind_eq_some.mp hwalk
      obtain ⟨rfl, -⟩ := pure_eq_some.mp hwalk
      have hc' := (List.append_eq_nil_iff.mp hflat).1
      cases c with
      | all gs => exact (hsingle _ List.mem_cons_self).elim
      | «exists» gs g =>
          rw [Goal.walk] at hc
          obtain ⟨targets, r, -, hc⟩ := bind_eq_some.mp hc
          obtain ⟨value, r, -, hc⟩ := bind_eq_some.mp hc
          obtain ⟨rfl, -⟩ := pure_eq_some.mp hc
          exact nomatch hc'
      | implies as g =>
          rw [Goal.walk] at hc
          obtain ⟨targets, r, -, hc⟩ := bind_eq_some.mp hc
          obtain ⟨value, r, -, hc⟩ := bind_eq_some.mp hc
          obtain ⟨rfl, -⟩ := pure_eq_some.mp hc
          exact nomatch hc'
      | atom a =>
          rw [Goal.walk] at hc
          obtain ⟨value, r, -, hc⟩ := bind_eq_some.mp hc
          obtain ⟨rfl, -⟩ := pure_eq_some.mp hc
          exact nomatch hc'
      | maybe =>
          rw [Goal.walk] at hc
          obtain ⟨rfl, -⟩ := pure_eq_some.mp hc
          exact nomatch hc'

end Extract

/-! ### Answers to one query -/

/-- An answer that a task extracts from an instance of the query, in any state it has got to. -/
def Extracted (query : GoalQueryData) (answer : QueryResult) : Prop :=
  ∃ fuel state version result, state.inputs = (instantiateQuery query).inputs ∧
    state.nextResponseParam = query.nextResponseParam ∧
    extractQueryResultAt fuel state version result = some answer

theorem instantiateInputs_params (version : Version) :
    ∀ (infos : List CanonicalVarInfo) (acc : VersionedEGraph × TypeMapping × List InputInstance),
      ((instantiateInputs version infos acc).2.2).map InputInstance.param =
        acc.2.2.map InputInstance.param ++ infos.map CanonicalVarInfo.param
  | [], _ => by simp [instantiateInputs]
  | info :: infos, (g, mapping, inputs) => by
      rw [instantiateInputs, instantiateInputs_params version infos]
      simp

theorem validateInputs_index {data : GoalQueryData} : ∀ {infos : List CanonicalVarInfo}
    {visible visible' : List AlphaEquivParam}, validateInputs data infos visible = .ok visible' →
      ∀ info ∈ infos, info.param.index < data.nextResponseParam
  | [], _, _, _ => nofun
  | info :: infos, visible, _, h => by
      rw [validateInputs] at h
      split_ifs at h with _ _ _ _ hmeta
      rintro i (_ | ⟨_, hi⟩)
      · exact Nat.lt_of_not_le (not_or.mp hmeta).2
      · exact validateInputs_index h i hi

/-- The unconditional answer to a query is always the same. -/
theorem extracted_unconditional {query : GoalQueryData} {answer : QueryResult}
    (hquery : validateGoalQuery query = .ok ()) (h : Extracted query answer)
    (hu : isUnconditionalAnswer answer) : answer = ⟨[], .yes .proven [] Goal.true_⟩ := by
  obtain ⟨fuel, state, version, result, hinputs, hnext, hrun⟩ := h
  rw [extractQueryResultAt, extractQueryResultWithOutputAt, Option.bind_eq_bind,
    Option.bind_eq_some_iff] at hrun
  obtain ⟨⟨value, e⟩, hvalue, hanswer⟩ := hrun
  obtain rfl := Option.some.inj hanswer
  have hindex : ∀ input ∈ state.inputs, input.param.index < state.nextResponseParam := by
    intro input hinput
    have hparam := List.mem_map_of_mem (f := InputInstance.param) (hinputs ▸ hinput)
    rw [instantiateQuery, instantiateInputs_params, List.map_nil, List.nil_append] at hparam
    obtain ⟨info, hinfo, hparam⟩ := List.mem_map.mp hparam
    obtain ⟨visible, hvalid, -⟩ := bind_eq_ok.mp hquery
    rw [← hparam, hnext]
    exact validateInputs_index hvalid info hinfo
  cases result with
  | no =>
      obtain ⟨rfl, -⟩ := pure_eq_some.mp hvalue
      exact nomatch hu
  | maybe =>
      obtain ⟨hints, r, -, h⟩ := bind_eq_some.mp hvalue
      obtain ⟨rfl, -⟩ := pure_eq_some.mp h
      exact nomatch hu
  | yes modulo =>
      obtain ⟨subst, r, hsubst, h⟩ := bind_eq_some.mp hvalue
      obtain ⟨output, r', houtput, h⟩ := bind_eq_some.mp h
      obtain ⟨goal, r'', hgoal, h⟩ := bind_eq_some.mp h
      obtain ⟨rfl, rfl⟩ := pure_eq_some.mp h
      obtain ⟨rfl, rfl⟩ := pure_eq_some.mp houtput
      rw [isUnconditionalAnswer, Bool.and_eq_true, decide_eq_true_eq,
        Goal.isTriviallyTrue_iff] at hu
      obtain ⟨hnil, rfl⟩ := hu
      obtain rfl := List.isEmpty_iff.mp hnil
      obtain rfl := ResponseExtractor.extractSubstitution_nil hindex hsubst
      rw [walk_conjuncts_nil hgoal rfl]

/-! ### Every schedule gives the same answer -/

section Schedule

variable [FingerprintOrder] {query : GoalQueryData} {incomplete : Bool}

/-- Cutting off the candidates that have not answered when one has answered unconditionally. -/
theorem mergeAnswers_cut (hquery : validateGoalQuery query = .ok ())
    {kept answers : List QueryResult} {u : QueryResult}
    (h : ∀ r ∈ answers, Extracted query r) (hkept : kept ⊆ answers) (hu : u ∈ kept)
    (hunconditional : isUnconditionalAnswer u) :
    mergeAnswers query incomplete kept = mergeAnswers query incomplete answers := by
  have huniq : ∀ r ∈ answers, isUnconditionalAnswer r → r = u := fun r hr hr' =>
    (extracted_unconditional hquery (h r hr) hr').trans
      (extracted_unconditional hquery (h u (hkept hu)) hunconditional).symm
  rw [mergeAnswers, mergeAnswers,
    mergeCandidateResults_unconditional hu hunconditional fun r hr => huniq r (hkept hr),
    mergeCandidateResults_unconditional (hkept hu) hunconditional huniq]

theorem solveTraitFrame_eq (hquery : validateGoalQuery query = .ok ())
    {completed : List QueryResult} (h : ∀ r ∈ completed, Extracted query r) :
    solveTraitFrame query incomplete completed = mergeAnswers query incomplete completed := by
  rw [solveTraitFrame]
  rcases collectAnswers_eq with heq | ⟨u, hu, hunconditional, hsub⟩
  · rw [heq]
  · exact mergeAnswers_cut hquery h hsub hu hunconditional

/-- Candidates may complete in any order, with those that are cut off cancelled.  The merged
answer is a function of the set of possible answers, and does not change when answers are cut
off after an unconditional one. -/
theorem solveTraitFrame_schedule (hquery : validateGoalQuery query = .ok ()) :
    (∀ {Candidate : Type} (answer : Candidate → QueryResult) (candidates order : List Candidate),
      (∀ c ∈ candidates, Extracted query (answer c)) → order.Perm candidates →
      solveTraitFrame query incomplete (order.map answer) =
        solveTraitFrame query incomplete (candidates.map answer)) ∧
    (∀ answers answers' : List QueryResult,
      (∀ r, r.value ≠ .no → (r ∈ answers ↔ r ∈ answers')) →
      mergeAnswers query incomplete answers = mergeAnswers query incomplete answers') ∧
    ∀ (kept answers : List QueryResult) (u : QueryResult), (∀ r ∈ answers, Extracted query r) →
      kept ⊆ answers → u ∈ kept → isUnconditionalAnswer u →
      mergeAnswers query incomplete kept = mergeAnswers query incomplete answers := by
  refine ⟨fun answer candidates order h hperm => ?_, fun answers answers' h => ?_,
    fun kept answers u h hkept hu => mergeAnswers_cut hquery h hkept hu⟩
  · have hmem : ∀ r ∈ candidates.map answer, Extracted query r := List.forall_mem_map.mpr h
    have hperm := hperm.map answer
    rw [solveTraitFrame_eq hquery hmem,
      solveTraitFrame_eq hquery fun r hr => hmem r (hperm.mem_iff.mp hr)]
    exact mergeCandidateResults_congr fun r _ => hperm.mem_iff
  · exact mergeCandidateResults_congr h

end Schedule

/-- The query whether `bool` implements a trait. -/
def boolQuery : GoalQueryData where
  canonicalUniverse := 0
  canonicalVars := []
  nextResponseParam := 0
  assumptionsComplete := true
  assumptions := []
  goal := .prove (.atom (.traitImpl .bool ⟨.loc 0, []⟩))

theorem boolQuery_schedule :
    solveTraitFrame boolQuery false [noResult, ⟨[], .yes .proven [] Goal.true_⟩] =
      solveTraitFrame boolQuery false [⟨[], .yes .proven [] Goal.true_⟩, noResult] := by
  have hquery : validateGoalQuery boolQuery = .ok () := by decide
  have hextracted : ∀ r ∈ [⟨[], .yes .proven [] Goal.true_⟩, noResult], Extracted boolQuery r := by
    simp only [List.forall_mem_cons]
    exact ⟨⟨1, instantiateQuery boolQuery, 0, .yes Goal.true_, rfl, rfl, rfl⟩,
      ⟨1, instantiateQuery boolQuery, 0, .no, rfl, rfl, rfl⟩, nofun⟩
  exact (solveTraitFrame_schedule hquery).1 id [⟨[], .yes .proven [] Goal.true_⟩, noResult]
    [noResult, ⟨[], .yes .proven [] Goal.true_⟩] hextracted (.swap _ _ _)

end Sage
