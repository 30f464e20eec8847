import Mathlib.SetTheory.Cardinal.Order
import Sage.Library.Selection
import Sage.Solve.AntiUnify

/-!
# Solve — merging the answers of candidates

`merge_candidate_results` of `merge.rs` and the loop of `solve_trait_frame` that feeds it.  The
answers are put in the order of their fingerprints, an unconditional answer wins, and the
definite answers that another one dominates are left out.

* `mergeCandidateResults_congr` — the merged answer depends on the set of possible answers only.
* `solveTraitFrame_schedule` — it does not depend on the order in which candidates finish.
* `nonDominatedYes_lossless_iff` — exactly when pruning loses no definite answer.
-/

namespace Sage

/-! ### Candidates -/

/-- The order of the fingerprints of answers, which are taken to be injective. -/
class FingerprintOrder where
  le : QueryResult → QueryResult → Bool
  total : Std.Total fun a b => le a b = true
  trans : IsTrans QueryResult fun a b => le a b = true
  antisymm : Std.Antisymm fun a b => le a b = true

attribute [instance] FingerprintOrder.total FingerprintOrder.trans FingerprintOrder.antisymm

/-- There is such an order. -/
noncomputable instance (priority := low) FingerprintOrder.wellOrder : FingerprintOrder :=
  let order : LinearOrder QueryResult :=
    @linearOrderOfSTO _ WellOrderingRel _ (Classical.decRel _)
  { le := fun a b => decide (a ≤ b)
    total := ⟨fun a b => by simpa using order.le_total a b⟩
    trans := ⟨fun a b c => by simpa using order.le_trans a b c⟩
    antisymm := ⟨fun a b => by simpa using order.le_antisymm a b⟩ }

/-- Sort the answers by their fingerprints, and drop repetitions. -/
def sortAndDedup [FingerprintOrder] : List QueryResult → List QueryResult :=
  Selection.canonical fun a b => FingerprintOrder.le a b = true

def QueryResult.isYes (answer : QueryResult) : Bool :=
  match answer.value with
  | .yes _ _ _ => true
  | .maybe _ | .no => false

def QueryResult.isMaybe (answer : QueryResult) : Bool :=
  match answer.value with
  | .maybe _ => true
  | .yes _ _ _ | .no => false

def isUnconditionalAnswer (answer : QueryResult) : Bool :=
  match answer.value with
  | .yes .proven subst modulo => subst.isEmpty && decide modulo.IsTriviallyTrue
  | .yes (.type _) _ _ | .maybe _ | .no => false

def noResult : QueryResult := ⟨[], .no⟩

section Merge

variable (inputUniverses : ParamUniverses) (inputDomains : ParamDomains)

/-- Which answers no other one dominates; of answers that subsume each other the first is kept. -/
def keep (answers : List QueryResult) : List Bool :=
  answers.zipIdx.map fun (answer, index) => !answers.zipIdx.any fun (other, otherIndex) =>
    otherIndex ≠ index && subsumes inputUniverses inputDomains other answer &&
      (!subsumes inputUniverses inputDomains answer other || otherIndex < index)

def nonDominatedYes (answers : List QueryResult) : List QueryResult :=
  (answers.zip (keep inputUniverses inputDomains answers)).filterMap fun (answer, keep) =>
    if keep then some answer else none

variable [FingerprintOrder]

def mergeCandidateResults (nextResponseParam : Nat) (candidates : List QueryResult)
    (sawIncompleteSource : Bool) : QueryResult :=
  let candidates := sortAndDedup candidates
  match candidates.find? isUnconditionalAnswer with
  | some unconditional => unconditional
  | none =>
      let yes := nonDominatedYes inputUniverses inputDomains (candidates.filter QueryResult.isYes)
      let maybe := candidates.filter QueryResult.isMaybe
      match yes, maybe, sawIncompleteSource with
      | [answer], [], false => answer
      | [], [], false => noResult
      | [], [answer], false => answer
      | yes, maybe, sawIncompleteSource =>
          mergeHints inputUniverses nextResponseParam inputDomains (yes ++ maybe)
            sawIncompleteSource

end Merge

/-! ### Trait frames -/

/-- The universes of the inputs of an instance. -/
def inputUniverses (frame : QueryProofState) : ParamUniverses :=
  frame.inputs.map fun input => (input.param,
    match input.ty with
    | .inferVar index => frame.egraph.currentUniverse frame.version index
    | .param param => frame.egraph.placeholderUniverse param
    -- A canonical input is a variable or a placeholder.
    | _ => 0)

def inputDomains (frame : QueryProofState) : ParamDomains :=
  frame.inputs.map fun input => (input.param, input.domain)

/-- The answers received until one is unconditional; the other candidates are then cancelled. -/
def collectAnswers : List QueryResult → List QueryResult
  | [] => []
  | answer :: rest =>
      if isUnconditionalAnswer answer then [answer] else answer :: collectAnswers rest

section Frame

variable [FingerprintOrder] (query : GoalQueryData) (incomplete : Bool)

/-- The merged answer of a query's candidates. -/
def mergeAnswers (answers : List QueryResult) : QueryResult :=
  mergeCandidateResults (inputUniverses (instantiateQuery query))
    (inputDomains (instantiateQuery query)) query.nextResponseParam answers incomplete

/-- The answer to a trait query whose candidates complete in the given order. -/
def solveTraitFrame (completed : List QueryResult) : QueryResult :=
  mergeAnswers query incomplete (collectAnswers completed)

end Frame

/-! ### Merging depends on the set of possible answers -/

theorem isYes_of_isUnconditional {r : QueryResult} (h : isUnconditionalAnswer r) : r.isYes := by
  rw [isUnconditionalAnswer] at h
  rw [QueryResult.isYes]
  split at h <;> simp_all

theorem ne_no_of_isYes {r : QueryResult} (h : r.isYes) : r.value ≠ .no := by
  rw [QueryResult.isYes] at h
  split at h <;> simp_all

theorem ne_no_of_isMaybe {r : QueryResult} (h : r.isMaybe) : r.value ≠ .no := by
  rw [QueryResult.isMaybe] at h
  split at h <;> simp_all

section Congr

variable [FingerprintOrder] {inputUniverses : ParamUniverses} {inputDomains : ParamDomains}

@[simp] theorem mem_sortAndDedup {r : QueryResult} {candidates : List QueryResult} :
    r ∈ sortAndDedup candidates ↔ r ∈ candidates := Selection.mem_canonical _

/-- The merged answer depends on the set of possible answers only: not on their order, on
repetitions or on negative answers. -/
theorem mergeCandidateResults_congr {nextResponseParam : Nat} {incomplete : Bool}
    {candidates candidates' : List QueryResult}
    (h : ∀ r, r.value ≠ .no → (r ∈ candidates ↔ r ∈ candidates')) :
    mergeCandidateResults inputUniverses inputDomains nextResponseParam candidates incomplete =
      mergeCandidateResults inputUniverses inputDomains nextResponseParam candidates' incomplete := by
  have hfilter : ∀ p : QueryResult → Bool, (∀ r, p r → r.value ≠ .no) →
      (sortAndDedup candidates).filter p =
        (sortAndDedup candidates').filter p := fun p hp =>
    Selection.filter_canonical_congr _ fun r hr => h r (hp r hr)
  have hunconditional := hfilter _ fun r hr => ne_no_of_isYes (isYes_of_isUnconditional hr)
  have hyes := hfilter _ fun r hr => ne_no_of_isYes hr
  have hmaybe := hfilter _ fun r hr => ne_no_of_isMaybe hr
  simp only [mergeCandidateResults]
  rw [← List.head?_filter, ← List.head?_filter, hunconditional, hyes, hmaybe]

/-- When unconditional answers are all the same one, it is the merged answer. -/
theorem mergeCandidateResults_unconditional {nextResponseParam : Nat}
    {candidates : List QueryResult} {incomplete : Bool} {u : QueryResult} (hu : u ∈ candidates)
    (hunconditional : isUnconditionalAnswer u)
    (huniq : ∀ r ∈ candidates, isUnconditionalAnswer r → r = u) :
    mergeCandidateResults inputUniverses inputDomains nextResponseParam candidates incomplete =
      u := by
  have hfind : (sortAndDedup candidates).find? isUnconditionalAnswer =
      some u := by
    cases hr : (sortAndDedup candidates).find? isUnconditionalAnswer with
    | none =>
        rw [List.find?_eq_none] at hr
        exact absurd hunconditional (hr u (mem_sortAndDedup.mpr hu))
    | some r =>
        have hmem := mem_sortAndDedup.mp (List.mem_of_find?_eq_some hr)
        rw [huniq r hmem (List.find?_some hr)]
  simp only [mergeCandidateResults, hfind]

end Congr

theorem collectAnswers_eq {answers : List QueryResult} :
    collectAnswers answers = answers ∨
      ∃ u ∈ collectAnswers answers, isUnconditionalAnswer u ∧ collectAnswers answers ⊆ answers := by
  induction answers with
  | nil => exact .inl rfl
  | cons answer rest ih =>
      by_cases h : isUnconditionalAnswer answer
      · refine .inr ⟨answer, ?_, h, ?_⟩ <;> simp [collectAnswers, h]
      · rw [collectAnswers, if_neg h]
        rcases ih with ih | ⟨u, hu, hunconditional, hsub⟩
        · exact .inl (by rw [ih])
        · exact .inr ⟨u, List.mem_cons_of_mem _ hu, hunconditional, List.cons_subset_cons _ hsub⟩

/-! ### When pruning loses no definite answer -/

section Lossless

variable (inputUniverses : ParamUniverses) (inputDomains : ParamDomains)

/-- The answer at one position dominates the answer at another. -/
def Dominates (answers : List QueryResult) (other index : Nat) : Prop :=
  ∃ o a, answers[other]? = some o ∧ answers[index]? = some a ∧ other ≠ index ∧
    subsumes inputUniverses inputDomains o a ∧
    (¬subsumes inputUniverses inputDomains a o ∨ other < index)

/-- Some definite answer is kept, and every one that is dropped is subsumed by a kept one. -/
def Lossless (answers : List QueryResult) : Prop :=
  nonDominatedYes inputUniverses inputDomains answers ≠ [] ∧
    ∀ (i : Nat) (a : QueryResult), answers[i]? = some a →
      (keep inputUniverses inputDomains answers)[i]? = some false →
      ∃ k ∈ nonDominatedYes inputUniverses inputDomains answers,
        subsumes inputUniverses inputDomains k a

variable {inputUniverses inputDomains} {answers : List QueryResult}

variable (inputUniverses inputDomains) in
theorem keep_getElem? {i : Nat} {a : QueryResult} (h : answers[i]? = some a) :
    ∃ b, (keep inputUniverses inputDomains answers)[i]? = some b ∧
      (b = true ↔ ∀ j, ¬Dominates inputUniverses inputDomains answers j i) := by
  refine ⟨_, by rw [keep, List.getElem?_map, List.getElem?_zipIdx, h]; rfl, ?_⟩
  rw [Bool.not_eq_true', ← Bool.not_eq_true, List.any_eq_true, not_exists]
  constructor
  · rintro hall j ⟨o, a', ho, ha, hne, hsub, hor⟩
    obtain rfl : a = a' := Option.some.inj (h.symm.trans ha)
    refine hall (o, j) ⟨List.mk_mem_zipIdx_iff_getElem?.mpr ho, ?_⟩
    simpa [hne, hsub] using hor
  · rintro hall ⟨o, j⟩ ⟨hmem, hdom⟩
    simp only [ne_eq, decide_not, Nat.zero_add, Bool.and_eq_true, Bool.not_eq_eq_eq_not,
      Bool.not_true, decide_eq_false_iff_not, Bool.or_eq_true, decide_eq_true_eq] at hdom
    exact hall j ⟨o, a, List.mk_mem_zipIdx_iff_getElem?.mp hmem, h, hdom.1.1, hdom.1.2, by
      simpa using hdom.2⟩

theorem mem_nonDominatedYes {k : QueryResult} :
    k ∈ nonDominatedYes inputUniverses inputDomains answers ↔
      ∃ i : Nat, answers[i]? = some k ∧ ∀ j, ¬Dominates inputUniverses inputDomains answers j i := by
  rw [nonDominatedYes, List.mem_filterMap]
  constructor
  · rintro ⟨⟨a, b⟩, hmem, hb⟩
    obtain ⟨i, hi⟩ := List.mem_iff_getElem?.mp hmem
    rw [List.getElem?_zip_eq_some] at hi
    obtain ⟨b', hb', hiff⟩ := keep_getElem? inputUniverses inputDomains hi.1
    obtain rfl : b = b' := Option.some.inj (hi.2.symm.trans hb')
    cases b with
    | false => exact nomatch hb
    | true =>
        obtain rfl := Option.some.inj hb
        exact ⟨i, hi.1, hiff.mp rfl⟩
  · rintro ⟨i, hi, hall⟩
    obtain ⟨b, hb, hiff⟩ := keep_getElem? inputUniverses inputDomains hi
    obtain rfl := hiff.mpr hall
    exact ⟨(k, true), List.mem_iff_getElem?.mpr ⟨i, List.getElem?_zip_eq_some.mpr ⟨hi, hb⟩⟩, rfl⟩

/-- A kept answer subsumes every answer that subsumes it. -/
theorem subsumes_of_mem_nonDominatedYes {k o : QueryResult}
    (hk : k ∈ nonDominatedYes inputUniverses inputDomains answers) (ho : o ∈ answers)
    (h : subsumes inputUniverses inputDomains o k) : subsumes inputUniverses inputDomains k o := by
  obtain ⟨i, hi, hall⟩ := mem_nonDominatedYes.mp hk
  obtain ⟨j, hj⟩ := List.mem_iff_getElem?.mp ho
  rcases eq_or_ne j i with rfl | hne
  · obtain rfl := Option.some.inj (hi.symm.trans hj)
    exact h
  · by_contra hnot
    exact hall j ⟨o, k, hj, hi, hne, h, .inl hnot⟩

/-- Every answer is one that nothing dominates, or is subsumed by such a one. -/
def Undominated (inputUniverses : ParamUniverses) (inputDomains : ParamDomains)
    (answers : List QueryResult) : Prop :=
  ∀ (i : Nat) (a : QueryResult), answers[i]? = some a →
    ∃ (k : Nat) (b : QueryResult), answers[k]? = some b ∧
      (k = i ∨ subsumes inputUniverses inputDomains b a) ∧
      ∀ j, ¬Dominates inputUniverses inputDomains answers j k

theorem lossless_iff (hne : answers ≠ []) : Lossless inputUniverses inputDomains answers ↔
    Undominated inputUniverses inputDomains answers := by
  constructor
  · rintro ⟨-, hdropped⟩ i a ha
    obtain ⟨b, hb, hiff⟩ := keep_getElem? inputUniverses inputDomains ha
    cases b with
    | true => exact ⟨i, a, ha, .inl rfl, hiff.mp rfl⟩
    | false =>
        obtain ⟨k, hk, hsub⟩ := hdropped i a ha hb
        obtain ⟨j, hj, hall⟩ := mem_nonDominatedYes.mp hk
        exact ⟨j, k, hj, .inr hsub, hall⟩
  · intro h
    refine ⟨?_, fun i a ha hkeep => ?_⟩
    · obtain ⟨a, rest, rfl⟩ := List.exists_cons_of_ne_nil hne
      obtain ⟨k, b, hb, -, hall⟩ := h 0 a rfl
      exact List.ne_nil_of_mem (mem_nonDominatedYes.mpr ⟨k, hb, hall⟩)
    · obtain ⟨k, b, hb, hk, hall⟩ := h i a ha
      refine ⟨b, mem_nonDominatedYes.mpr ⟨k, hb, hall⟩, hk.resolve_left fun hki => ?_⟩
      obtain ⟨c, hc, hiff⟩ := keep_getElem? inputUniverses inputDomains ha
      rw [hkeep] at hc
      exact Bool.noConfusion ((Option.some.inj hc).trans (hiff.mpr (hki ▸ hall)))

end Lossless

section Final

variable [FingerprintOrder] {inputUniverses : ParamUniverses} {inputDomains : ParamDomains}
  {nextResponseParam : Nat} {candidates : List QueryResult} {incomplete : Bool}

/-- The definite answers, in the order of their fingerprints. -/
def definiteAnswers (candidates : List QueryResult) : List QueryResult :=
  (sortAndDedup candidates).filter QueryResult.isYes

theorem filter_isMaybe_eq_nil :
    (sortAndDedup candidates).filter QueryResult.isMaybe = [] ↔
      ∀ c ∈ candidates, c.isMaybe = false := by
  simp [List.filter_eq_nil_iff]

omit [FingerprintOrder] in
theorem mergeHints_ne_no {answers : List QueryResult} :
    (mergeHints inputUniverses nextResponseParam inputDomains answers incomplete).value ≠ .no := by
  rw [mergeHints]
  split
  rename_i heq
  split <;> exact nofun

/-- The merged answer is negative only when no source is incomplete, no candidate may hold and
no definite answer is left. -/
theorem mergeCandidateResults_no_iff :
    (mergeCandidateResults inputUniverses inputDomains nextResponseParam candidates
        incomplete).value = .no ↔
      incomplete = false ∧ (∀ c ∈ candidates, c.isMaybe = false) ∧
        (∀ c ∈ candidates, isUnconditionalAnswer c = false) ∧
        nonDominatedYes inputUniverses inputDomains (definiteAnswers candidates) = [] := by
  have hyes : ∀ r ∈ nonDominatedYes inputUniverses inputDomains (definiteAnswers candidates),
      r.value ≠ .no := by
    intro r hr
    obtain ⟨i, hi, -⟩ := mem_nonDominatedYes.mp hr
    exact ne_no_of_isYes (List.mem_filter.mp (List.mem_iff_getElem?.mpr ⟨i, hi⟩)).2
  have hmaybe : ∀ r ∈ (sortAndDedup candidates).filter
      QueryResult.isMaybe, r.value ≠ .no := fun r hr => ne_no_of_isMaybe (List.mem_filter.mp hr).2
  rw [← filter_isMaybe_eq_nil, mergeCandidateResults]
  cases hfind : (sortAndDedup candidates).find? isUnconditionalAnswer with
  | some u =>
      have hu := List.find?_some hfind
      refine iff_of_false (ne_no_of_isYes (isYes_of_isUnconditional hu)) fun h => ?_
      have hmem := mem_sortAndDedup.mp (List.mem_of_find?_eq_some hfind)
      exact Bool.noConfusion (hu.symm.trans (h.2.2.1 u hmem))
  | none =>
      have hnone : ∀ c ∈ candidates, isUnconditionalAnswer c = false := by
        intro c hc
        simpa using List.find?_eq_none.mp hfind c (mem_sortAndDedup.mpr hc)
      rw [definiteAnswers] at hyes ⊢
      simp only [eq_true hnone, true_and]
      revert hyes hmaybe
      generalize nonDominatedYes inputUniverses inputDomains _ = yes
      generalize (sortAndDedup candidates).filter QueryResult.isMaybe = maybe
      intro hyes hmaybe
      rcases yes with _ | ⟨y, _ | ⟨y', ys⟩⟩ <;> rcases maybe with _ | ⟨m, _ | ⟨m', ms⟩⟩ <;>
        cases incomplete <;> simp_all [noResult, mergeHints_ne_no]

variable (inputUniverses inputDomains nextResponseParam candidates incomplete) in
/-- A negative answer is given only when no candidate may hold and no source is incomplete. -/
def NoIsFinal : Prop :=
  (mergeCandidateResults inputUniverses inputDomains nextResponseParam candidates
    incomplete).value = .no → (∀ c ∈ candidates, c.value = .no) ∧ incomplete = false

theorem noIsFinal_iff :
    NoIsFinal inputUniverses inputDomains nextResponseParam candidates incomplete ↔
      ((∃ c ∈ candidates, c.isYes) → incomplete = true ∨
        (∃ c ∈ candidates, c.isMaybe ∨ isUnconditionalAnswer c) ∨
        ∃ (k : Nat) (b : QueryResult), (definiteAnswers candidates)[k]? = some b ∧
          ∀ j, ¬Dominates inputUniverses inputDomains (definiteAnswers candidates) j k) := by
  rw [NoIsFinal, mergeCandidateResults_no_iff]
  constructor
  · rintro h ⟨c, hc, hyes⟩
    by_contra hnone
    simp only [not_or, not_exists, not_and, Bool.not_eq_true] at hnone
    obtain ⟨hincomplete, hmaybe, hall⟩ := hnone
    have hnil : nonDominatedYes inputUniverses inputDomains (definiteAnswers candidates) = [] := by
      refine List.eq_nil_iff_forall_not_mem.mpr fun b hb => ?_
      obtain ⟨k, hk, hdom⟩ := mem_nonDominatedYes.mp hb
      exact hall k b hk hdom
    have hno := (h ⟨hincomplete, fun c hc => (hmaybe c hc).1, fun c hc => (hmaybe c hc).2, hnil⟩).1
    exact ne_no_of_isYes hyes (hno c hc)
  · rintro h ⟨hincomplete, hmaybe, hunconditional, hnil⟩
    refine ⟨fun c hc => ?_, hincomplete⟩
    by_contra hc'
    have hyes : c.isYes := by
      have := hmaybe c hc
      rw [QueryResult.isMaybe] at this
      rw [QueryResult.isYes]
      split at this <;> simp_all
    rcases h ⟨c, hc, hyes⟩ with htrue | ⟨c, hc, hmaybe' | hunconditional'⟩ | ⟨k, b, hb, hall⟩
    · exact Bool.noConfusion (hincomplete.symm.trans htrue)
    · exact Bool.noConfusion (hmaybe'.symm.trans (hmaybe c hc))
    · exact Bool.noConfusion (hunconditional'.symm.trans (hunconditional c hc))
    · exact List.not_mem_nil (hnil ▸ mem_nonDominatedYes.mpr ⟨k, hb, hall⟩)

end Final

/-- Pruning loses nothing exactly when every answer is one that nothing dominates or is subsumed
by such a one, and a negative merged answer is right exactly when an undominated definite
answer, an incomplete source or another possible answer rules it out. -/
theorem nonDominatedYes_lossless_iff [FingerprintOrder] (inputUniverses : ParamUniverses)
    (inputDomains : ParamDomains) :
    (∀ answers : List QueryResult, answers ≠ [] →
      (Lossless inputUniverses inputDomains answers ↔
        Undominated inputUniverses inputDomains answers)) ∧
    ∀ (nextResponseParam : Nat) (candidates : List QueryResult) (incomplete : Bool),
      NoIsFinal inputUniverses inputDomains nextResponseParam candidates incomplete ↔
        ((∃ c ∈ candidates, c.isYes) → incomplete = true ∨
          (∃ c ∈ candidates, c.isMaybe ∨ isUnconditionalAnswer c) ∨
          ∃ (k : Nat) (b : QueryResult), (definiteAnswers candidates)[k]? = some b ∧
            ∀ j, ¬Dominates inputUniverses inputDomains (definiteAnswers candidates) j k) :=
  ⟨fun _ hne => lossless_iff hne, fun _ _ _ => noIsFinal_iff⟩

/-! ### Three answers that dominate each other in a circle -/

/-- Residual goals `T x`, `T y` and `U x` for traits and variables of their own.  As `x` takes
the first known `T`, the order decides what the goals match and what they can be matched by. -/
def circleGoals (feature : Nat) (order : List Nat) : List Goal :=
  let goal (traitId param : Nat) : Goal :=
    .atom (.traitImpl (.param (.alphaEquiv ⟨.type, param⟩)) ⟨.loc traitId, []⟩)
  order.filterMap fun i =>
    [goal (2 * feature) (2 * feature), goal (2 * feature) (2 * feature + 1),
      goal (2 * feature + 1) (2 * feature)][i]?

def circleAnswer (orders : List (List Nat)) : QueryResult where
  boundVars := (List.range 6).map fun i => ⟨⟨.type, i⟩, .type, 0, .any⟩
  value := .yes .proven [] (.all (orders.zipIdx.flatMap fun p => circleGoals p.2 p.1))

def circle : List QueryResult :=
  [circleAnswer [[2, 1, 0], [2, 0, 1], [0, 1, 2]],
    circleAnswer [[0, 1, 2], [2, 1, 0], [2, 0, 1]],
    circleAnswer [[2, 0, 1], [0, 1, 2], [2, 1, 0]]]

theorem lossless_circle_iff : Lossless [] [] circle ↔ Undominated [] [] circle :=
  (nonDominatedYes_lossless_iff [] []).1 circle (List.cons_ne_nil _ _)

/-- Pruning drops all three, and the merged answer is negative. -/
theorem circle_lost : circle ≠ [] ∧ (∀ r ∈ circle, r.isYes) ∧ nonDominatedYes [] [] circle = [] ∧
    (mergeCandidateResults [] [] 6 circle false).value = .no := by
  have hyes : ∀ r ∈ circle, r.isYes := by decide
  refine ⟨List.cons_ne_nil _ _, hyes, by decide +kernel, ?_⟩
  refine mergeCandidateResults_no_iff.mpr ⟨rfl, by decide, by decide, ?_⟩
  refine List.eq_nil_iff_forall_not_mem.mpr fun r hr => ?_
  have hstrict : ∀ r ∈ circle, ∃ o ∈ circle, subsumes [] [] o r ∧ subsumes [] [] r o = false := by
    decide +kernel
  obtain ⟨i, hi, -⟩ := mem_nonDominatedYes.mp hr
  have hmem := (List.mem_filter.mp (List.mem_iff_getElem?.mpr ⟨i, hi⟩)).1
  obtain ⟨o, ho, hsub, hnot⟩ := hstrict r (mem_sortAndDedup.mp hmem)
  have ho' : o ∈ definiteAnswers circle := List.mem_filter.mpr ⟨mem_sortAndDedup.mpr ho, hyes o ho⟩
  exact Bool.noConfusion (hnot.symm.trans (subsumes_of_mem_nonDominatedYes hr ho' hsub))

end Sage
