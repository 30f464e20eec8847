import Mathlib.Data.List.Basic
import Mathlib.Logic.Relation

/-!
# Library — breadth-first search

A search keeps the paths it has found, the oldest first, and the points it has seen.  It gives back
a path to the first goal.

* `search` — the search, with fuel.
* `search_eq_none` — with enough fuel, a search without a result has seen no goal.
-/

namespace Sage.Search

variable {α : Type} [DecidableEq α] (next : α → List α) (goal : α → Bool)

/-- A path is the points before its end, and its end. -/
def search : Nat → List (List α × α) → List α → Option (List α)
  | 0, _, _ => none
  | _ + 1, [], _ => none
  | fuel + 1, (front, last) :: queue, seen =>
      if goal last then some (front ++ [last])
      else if last ∈ seen then search fuel queue seen
      else search fuel (queue ++ (next last).map (front ++ [last], ·)) (last :: seen)

/-! ### Fuel -/

/-- What is still to be queued from the points not seen. -/
def pending (support seen : List α) : Nat :=
  ((support.filter (· ∉ seen)).flatMap next).length

variable {next} {goal} {support seen : List α} {a : α}

theorem pending_of_not_mem (h : a ∉ support) :
    pending next support (a :: seen) = pending next support seen := by
  rw [pending, pending, List.filter_congr]
  intro x hx
  have hne : x ≠ a := fun heq => h (heq ▸ hx)
  simp [hne]

/-- A point that is seen now has queued what it had to queue. -/
theorem pending_cons (hnodup : support.Nodup) (ha : a ∈ support) (hseen : a ∉ seen) :
    pending next support (a :: seen) + (next a).length = pending next support seen := by
  induction support with
  | nil => cases ha
  | cons x support ih =>
      obtain ⟨hx, hnodup⟩ := List.nodup_cons.mp hnodup
      by_cases hxa : x = a
      · subst hxa
        have hrest : pending next support (x :: seen) = pending next support seen :=
          pending_of_not_mem hx
        simp only [pending, List.filter_cons, List.mem_cons, true_or, not_true_eq_false,
          decide_false, Bool.false_eq_true, if_false, hseen, not_false_eq_true, decide_true,
          if_true, List.flatMap_cons, List.length_append] at hrest ⊢
        rw [hrest, Nat.add_comm]
      · have hrest := ih hnodup ((List.mem_cons.mp ha).resolve_left fun heq => hxa heq.symm)
        simp only [pending, List.filter_cons, List.mem_cons, hxa, false_or] at hrest ⊢
        by_cases hxs : x ∈ seen
        · simpa [hxs] using hrest
        · simp only [hxs, not_false_eq_true, decide_true, if_true, List.flatMap_cons,
            List.length_append]
          rw [Nat.add_assoc, hrest]

/-! ### Completeness -/

/-- No goal is reached from the points in the queue.  The points seen lead to points seen or
queued, and no expansion is cut short by the fuel. -/
theorem search_eq_none (hnodup : support.Nodup) (hsupport : ∀ x, next x ≠ [] → x ∈ support)
    {fuel : Nat} {queue : List (List α × α)}
    (hseen : ∀ x ∈ seen, goal x = false ∧
      ∀ y ∈ next x, y ∈ seen ∨ ∃ front, (front, y) ∈ queue)
    (hfuel : queue.length + pending next support seen < fuel)
    (hnone : search next goal fuel queue seen = none) :
    ∃ closed : α → Prop, (∀ x ∈ seen, closed x) ∧ (∀ path ∈ queue, closed path.2) ∧
      ∀ x, closed x → goal x = false ∧ ∀ y ∈ next x, closed y := by
  induction fuel generalizing queue seen with
  | zero => exact absurd hfuel (Nat.not_lt_zero _)
  | succ fuel ih =>
      cases queue with
      | nil =>
          refine ⟨(· ∈ seen), fun _ hx => hx, by simp, fun x hx => ⟨(hseen x hx).1, ?_⟩⟩
          intro y hy
          obtain hy | ⟨_, hqueue⟩ := (hseen x hx).2 y hy
          · exact hy
          · cases hqueue
      | cons path queue =>
          obtain ⟨front, last⟩ := path
          rw [search] at hnone
          cases hgoal : goal last with
          | true => rw [hgoal, if_pos rfl] at hnone; cases hnone
          | false =>
              rw [hgoal, if_neg Bool.false_ne_true] at hnone
              by_cases hlast : last ∈ seen
              · rw [if_pos hlast] at hnone
                have hseen' : ∀ x ∈ seen, goal x = false ∧
                    ∀ y ∈ next x, y ∈ seen ∨ ∃ front, (front, y) ∈ queue := by
                  intro x hx
                  refine ⟨(hseen x hx).1, fun y hy => ?_⟩
                  obtain hy | ⟨other, hqueue⟩ := (hseen x hx).2 y hy
                  · exact .inl hy
                  · obtain heq | hqueue := List.mem_cons.mp hqueue
                    · cases heq
                      exact .inl hlast
                    · exact .inr ⟨other, hqueue⟩
                obtain ⟨closed, hclosed, hqueued, hstep⟩ := ih hseen'
                  (by rw [List.length_cons] at hfuel; omega) hnone
                exact ⟨closed, hclosed, List.forall_mem_cons.mpr ⟨hclosed last hlast, hqueued⟩,
                  hstep⟩
              · rw [if_neg hlast] at hnone
                have hseen' : ∀ x ∈ last :: seen, goal x = false ∧ ∀ y ∈ next x,
                    y ∈ last :: seen ∨ ∃ path,
                      (path, y) ∈ queue ++ (next last).map (front ++ [last], ·) := by
                  intro x hx
                  obtain rfl | hx := List.mem_cons.mp hx
                  · refine ⟨hgoal, fun y hy => .inr ⟨front ++ [x], ?_⟩⟩
                    exact List.mem_append_right _ (List.mem_map.mpr ⟨y, hy, rfl⟩)
                  · refine ⟨(hseen x hx).1, fun y hy => ?_⟩
                    obtain hy | ⟨other, hqueue⟩ := (hseen x hx).2 y hy
                    · exact .inl (List.mem_cons_of_mem _ hy)
                    · obtain heq | hqueue := List.mem_cons.mp hqueue
                      · cases heq
                        exact .inl List.mem_cons_self
                      · exact .inr ⟨other, List.mem_append_left _ hqueue⟩
                have hpending : pending next support (last :: seen) + (next last).length =
                    pending next support seen := by
                  by_cases hmem : last ∈ support
                  · exact pending_cons hnodup hmem hlast
                  · have hnil : next last = [] := not_not.mp (mt (hsupport last) hmem)
                    rw [pending_of_not_mem hmem, hnil]
                    rfl
                obtain ⟨closed, hclosed, hqueued, hstep⟩ := ih hseen'
                  (by rw [List.length_append, List.length_map]; rw [List.length_cons] at hfuel; omega)
                  hnone
                refine ⟨closed, fun x hx => hclosed x (List.mem_cons_of_mem _ hx),
                  List.forall_mem_cons.mpr ⟨hclosed last List.mem_cons_self, ?_⟩, hstep⟩
                exact fun path hpath => hqueued path (List.mem_append_left _ hpath)

end Sage.Search
