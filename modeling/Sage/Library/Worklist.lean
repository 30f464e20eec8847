import Mathlib.Data.Finset.Card
import Mathlib.Data.Set.Finite.Basic
import Mathlib.Logic.Relation

/-!
# Library — closure with a stack

A run takes a point from a stack, visits it if it was not visited before, and puts what it leads to
on the stack.  It ends exactly if finitely many points can be reached, and then has visited these.

* `run` — the run, with fuel.
* `Covered` — the invariant of a run.
* `run_eq_some` — what a run has visited that ends; `run_ends` — finitely many points suffice.
-/

namespace Sage.Worklist

variable {α : Type} [DecidableEq α] (next : α → List α)

/-- The points visited are listed from the last one on. -/
def run : Nat → List α → List α → Option (List α)
  | 0, _, _ => none
  | _ + 1, [], visited => some visited
  | fuel + 1, a :: pending, visited =>
      if a ∈ visited then run fuel pending visited
      else run fuel ((next a).reverse ++ pending) (a :: visited)

/-- Reached from the roots. -/
inductive Reached (roots : List α) : α → Prop where
  | root {a : α} : a ∈ roots → Reached roots a
  | next {a b : α} : Reached roots a → b ∈ next a → Reached roots b

/-- What was reached is visited, pending or beyond a pending point. -/
structure Covered (roots pending visited : List α) : Prop where
  nodup : visited.Nodup
  sound : ∀ a, a ∈ visited ∨ a ∈ pending → Reached next roots a
  roots : ∀ a ∈ roots, a ∈ visited ∨ a ∈ pending
  edges : ∀ a ∈ visited, ∀ b ∈ next a, b ∈ visited ∨ b ∈ pending

variable {next} {roots pending visited result : List α} {a : α} {fuel : Nat}

omit [DecidableEq α] in
theorem Covered.start (roots : List α) : Covered next roots roots.reverse [] where
  nodup := List.nodup_nil
  sound := by
    rintro a (ha | ha)
    · cases ha
    · exact .root (List.mem_reverse.mp ha)
  roots a ha := .inr (List.mem_reverse.mpr ha)
  edges := by simp

omit [DecidableEq α] in
theorem Covered.skip (h : Covered next roots (a :: pending) visited) (ha : a ∈ visited) :
    Covered next roots pending visited where
  nodup := h.nodup
  sound b hb := h.sound b (hb.imp_right (List.mem_cons_of_mem _))
  roots b hb := by
    obtain hb | hb := h.roots b hb
    · exact .inl hb
    · obtain rfl | hb := List.mem_cons.mp hb
      · exact .inl ha
      · exact .inr hb
  edges b hb c hc := by
    obtain hc | hc := h.edges b hb c hc
    · exact .inl hc
    · obtain rfl | hc := List.mem_cons.mp hc
      · exact .inl ha
      · exact .inr hc

omit [DecidableEq α] in
theorem Covered.visit (h : Covered next roots (a :: pending) visited) (ha : a ∉ visited) :
    Covered next roots ((next a).reverse ++ pending) (a :: visited) := by
  have hreached : Reached next roots a := h.sound a (.inr List.mem_cons_self)
  have hmove {b : α} (hb : b ∈ visited ∨ b ∈ a :: pending) :
      b ∈ a :: visited ∨ b ∈ (next a).reverse ++ pending := by
    obtain hb | hb := hb
    · exact .inl (List.mem_cons_of_mem _ hb)
    · obtain rfl | hb := List.mem_cons.mp hb
      · exact .inl List.mem_cons_self
      · exact .inr (List.mem_append_right _ hb)
  refine ⟨List.nodup_cons.mpr ⟨ha, h.nodup⟩, ?_, fun b hb => hmove (h.roots b hb), ?_⟩
  · rintro b (hb | hb)
    · obtain rfl | hb := List.mem_cons.mp hb
      · exact hreached
      · exact h.sound b (.inl hb)
    · obtain hb | hb := List.mem_append.mp hb
      · exact .next hreached (List.mem_reverse.mp hb)
      · exact h.sound b (.inr (List.mem_cons_of_mem _ hb))
  · intro b hb c hc
    obtain rfl | hb := List.mem_cons.mp hb
    · exact .inr (List.mem_append_left _ (List.mem_reverse.mpr hc))
    · exact hmove (h.edges b hb c hc)

/-- The invariant is kept, and nothing is pending in the end. -/
theorem Covered.run (h : Covered next roots pending visited)
    (hrun : Worklist.run next fuel pending visited = some result) :
    Covered next roots [] result := by
  induction fuel generalizing pending visited with
  | zero => cases hrun
  | succ fuel ih =>
      cases pending with
      | nil =>
          cases hrun
          exact h
      | cons a pending =>
          rw [Worklist.run] at hrun
          split at hrun
          · rename_i ha
            exact ih (h.skip ha) hrun
          · rename_i ha
            exact ih (h.visit ha) hrun

/-- A run that ends has visited exactly what can be reached, each point once. -/
theorem run_eq_some (h : run next fuel roots.reverse [] = some result) :
    result.Nodup ∧ ∀ a, a ∈ result ↔ Reached next roots a := by
  have hcovered := (Covered.start roots).run h
  refine ⟨hcovered.nodup, fun a => ⟨fun ha => hcovered.sound a (.inl ha), fun ha => ?_⟩⟩
  induction ha with
  | root ha => exact (hcovered.roots _ ha).resolve_right (by simp)
  | next _ hb ih => exact (hcovered.edges _ ih _ hb).resolve_right (by simp)

/-- Every visit uses up one of the finitely many points. -/
theorem run_ends_of_covered (hfinite : {a | Reached next roots a}.Finite)
    (h : Covered next roots pending visited) :
    ∃ fuel result, run next fuel pending visited = some result := by
  generalize hleft : (hfinite.toFinset \ visited.toFinset).card = left
  induction left using Nat.strong_induction_on generalizing pending visited with
  | _ left ih =>
      induction pending with
      | nil => exact ⟨1, visited, rfl⟩
      | cons a pending ihPending =>
          by_cases ha : a ∈ visited
          · obtain ⟨fuel, result, hrun⟩ := ihPending (h.skip ha)
            exact ⟨fuel + 1, result, by rw [run, if_pos ha, hrun]⟩
          · have hless : (hfinite.toFinset \ (a :: visited).toFinset).card < left := by
              rw [← hleft]
              refine Finset.card_lt_card (Finset.ssubset_iff_of_subset ?_ |>.mpr ⟨a, ?_, ?_⟩)
              · intro b hb
                simp only [Finset.mem_sdiff, List.mem_toFinset, List.mem_cons, not_or] at hb ⊢
                exact ⟨hb.1, hb.2.2⟩
              · rw [Finset.mem_sdiff, Set.Finite.mem_toFinset, List.mem_toFinset]
                exact ⟨h.sound a (.inr List.mem_cons_self), ha⟩
              · simp
            obtain ⟨fuel, result, hrun⟩ := ih _ hless (h.visit ha) rfl
            exact ⟨fuel + 1, result, by rw [run, if_neg ha, hrun]⟩

theorem run_ends (hfinite : {a | Reached next roots a}.Finite) :
    ∃ fuel result, run next fuel roots.reverse [] = some result :=
  run_ends_of_covered hfinite (.start roots)

theorem finite_of_run (h : run next fuel roots.reverse [] = some result) :
    {a | Reached next roots a}.Finite :=
  result.toFinset.finite_toSet.subset fun a ha => by
    simpa using ((run_eq_some h).2 a).mpr ha

end Sage.Worklist
