import Mathlib.Data.Finset.Card
import Mathlib.Data.List.Chain
import Mathlib.Logic.Relation

/-!
# Library — following a partial function

A chase from a point applies a partial function until it has no value or returns to a point seen
before.  On finitely many points it visits exactly those that can be reached.

* `follow` — the chase, with the points seen so far.
* `mem_follow_iff` — what it visits.
* `Line` — a chase that runs out of values; it is `follow` where nothing returns.
-/

namespace Sage.Orbit

variable {α : Type} [DecidableEq α] (next : α → Option α)

def follow : Nat → List α → Option α → List α
  | 0, seen, _ => seen
  | _ + 1, seen, none => seen
  | fuel + 1, seen, some a =>
      if a ∈ seen then seen else follow fuel (seen ++ [a]) (next a)

/-- One application. -/
def Step (a b : α) : Prop := next a = some b

variable {next} {fuel : Nat} {seen l : List α} {a b : α} {current : Option α}

/-- The points seen lead to the current one. -/
structure Trail (next : α → Option α) (start : α) (seen : List α) (current : Option α) :
    Prop where
  nodup : seen.Nodup
  reached : ∀ x ∈ seen, Relation.ReflTransGen (Step next) start x
  current_reached : ∀ x ∈ current, Relation.ReflTransGen (Step next) start x
  /-- What a point seen leads to is seen, or is the current one. -/
  onward : ∀ x ∈ seen, ∀ y, next x = some y → y ∈ seen ∨ current = some y
  started : start ∈ seen ∨ current = some start

omit [DecidableEq α] in
theorem Trail.start (a : α) : Trail next a [] (some a) where
  nodup := List.nodup_nil
  reached := by simp
  current_reached := by
    intro x hx
    obtain rfl := Option.mem_some_iff.mp hx
    exact .refl
  onward := by simp
  started := .inr rfl

omit [DecidableEq α] in
theorem Trail.step {start : α} (h : Trail next start seen (some a)) (ha : a ∉ seen) :
    Trail next start (seen ++ [a]) (next a) where
  nodup := by
    rw [List.nodup_append]
    refine ⟨h.nodup, List.nodup_singleton a, ?_⟩
    rintro x hx y hy rfl
    exact ha (List.mem_singleton.mp hy ▸ hx)
  reached := by
    intro x hx
    obtain hx | hx := List.mem_append.mp hx
    · exact h.reached x hx
    · obtain rfl := List.mem_singleton.mp hx
      exact h.current_reached x rfl
  current_reached := by
    intro y hy
    exact (h.current_reached a rfl).tail hy
  onward := by
    intro x hx y hy
    obtain hx | hx := List.mem_append.mp hx
    · obtain hy | hy := h.onward x hx y hy
      · exact .inl (List.mem_append_left _ hy)
      · cases hy
        exact .inl (List.mem_append_right _ (List.mem_singleton_self a))
    · obtain rfl := List.mem_singleton.mp hx
      exact .inr hy
  started := by
    obtain h | h := h.started
    · exact .inl (List.mem_append_left _ h)
    · cases h
      exact .inl (List.mem_append_right _ (List.mem_singleton_self a))

omit [DecidableEq α] in
/-- Where nothing is left to see, the points seen are the reachable ones. -/
theorem Trail.closed {start : α} (h : Trail next start seen current)
    (hcurrent : ∀ x ∈ current, x ∈ seen) :
    seen.Nodup ∧ ∀ x, x ∈ seen ↔ Relation.ReflTransGen (Step next) start x := by
  refine ⟨h.nodup, fun x => ⟨h.reached x, fun hx => ?_⟩⟩
  induction hx with
  | refl => exact h.started.elim id fun hstart => hcurrent start hstart
  | tail _ hstep ih => exact (h.onward _ ih _ hstep).elim id fun hy => hcurrent _ hy

section Finite

variable {support : Finset α} (hsupport : ∀ a, next a ≠ none → a ∈ support)
include hsupport

/-- The fuel cannot run out: every point that leads on is one of the finitely many. -/
theorem follow_closed {start : α} (h : Trail next start seen current)
    (hall : current ≠ none → ∀ x ∈ seen, next x ≠ none)
    (hfuel : support.card < seen.length + fuel) :
    (follow next fuel seen current).Nodup ∧ ∀ x, x ∈ follow next fuel seen current ↔
      Relation.ReflTransGen (Step next) start x := by
  induction fuel generalizing seen current with
  | zero =>
      rw [follow]
      cases current with
      | none => exact h.closed (by simp)
      | some a =>
          have hcard : seen.length ≤ support.card := by
            rw [← List.toFinset_card_of_nodup h.nodup]
            refine Finset.card_le_card fun x hx => hsupport x ?_
            exact hall (by simp) x (List.mem_toFinset.mp hx)
          omega
  | succ fuel ih =>
      cases current with
      | none =>
          rw [follow]
          exact h.closed (by simp)
      | some a =>
          rw [follow]
          by_cases ha : a ∈ seen
          · rw [if_pos ha]
            exact h.closed (by simpa using ha)
          · rw [if_neg ha]
            refine ih (h.step ha) ?_ (by rw [List.length_append, List.length_singleton]; omega)
            intro hnext x hx
            obtain hx | hx := List.mem_append.mp hx
            · exact hall (by simp) x hx
            · exact List.mem_singleton.mp hx ▸ hnext

theorem mem_follow_iff (hfuel : support.card < fuel) (a x : α) :
    x ∈ follow next fuel [] (some a) ↔ Relation.ReflTransGen (Step next) a x :=
  (follow_closed hsupport (.start a) (by simp) (by simpa using hfuel)).2 x

theorem follow_nodup (hfuel : support.card < fuel) (a : α) :
    (follow next fuel [] (some a)).Nodup :=
  (follow_closed hsupport (.start a) (by simp) (by simpa using hfuel)).1

end Finite

/-! ### Chases that end -/

/-- The points from `a` on, up to one without a value. -/
inductive Line (next : α → Option α) : α → List α → Prop where
  | last {a : α} : next a = none → Line next a [a]
  | cons {a b : α} {l : List α} : next a = some b → Line next b l → Line next a (a :: l)

omit [DecidableEq α] in
theorem Line.mem_iff (h : Line next a l) {x : α} :
    x ∈ l ↔ Relation.ReflTransGen (Step next) a x := by
  induction h with
  | last hnone =>
      rw [List.mem_singleton]
      constructor
      · rintro rfl
        exact .refl
      · intro hx
        obtain rfl | ⟨y, hstep, -⟩ := hx.cases_head
        · rfl
        · cases hnone.symm.trans hstep
  | cons hnext _ ih =>
      rw [List.mem_cons, ih]
      constructor
      · rintro (rfl | hx)
        · exact .refl
        · exact .head hnext hx
      · intro hx
        obtain rfl | ⟨y, hstep, hy⟩ := hx.cases_head
        · exact .inl rfl
        · cases hnext.symm.trans hstep
          exact .inr hy

omit [DecidableEq α] in
theorem Line.unique {l' : List α} (h : Line next a l) (h' : Line next a l') : l = l' := by
  induction h generalizing l' with
  | last hnone =>
      cases h' with
      | last _ => rfl
      | cons hnext _ => cases hnone.symm.trans hnext
  | cons hnext _ ih =>
      cases h' with
      | last hnone => cases hnone.symm.trans hnext
      | cons hnext' hline' =>
          cases hnext.symm.trans hnext'
          rw [ih hline']

omit [DecidableEq α] in
/-- A chase that ends returns nowhere. -/
theorem Line.acyclic (h : Line next a l) : ¬ Relation.TransGen (Step next) a a := by
  induction h with
  | last hnone =>
      intro hloop
      obtain ⟨b, hstep, -⟩ := Relation.TransGen.head'_iff.mp hloop
      cases hnone.symm.trans hstep
  | cons hnext _ ih =>
      intro hloop
      obtain ⟨c, hstep, hback⟩ := Relation.TransGen.head'_iff.mp hloop
      cases hnext.symm.trans hstep
      exact ih (Relation.TransGen.tail'_iff.mpr ⟨_, hback, hnext⟩)

omit [DecidableEq α] in
theorem Line.next_getLast? (h : Line next a l) : ∃ x, l.getLast? = some x ∧ next x = none := by
  induction h with
  | last hnone => exact ⟨_, rfl, hnone⟩
  | @cons _ _ l _ hline ih =>
      obtain ⟨x, hlast, hnone⟩ := ih
      refine ⟨x, ?_, hnone⟩
      cases l with
      | nil => cases hlast
      | cons => rw [List.getLast?_cons_cons]; exact hlast

omit [DecidableEq α] in
theorem Line.isChain (h : Line next a l) : l.IsChain (Step next) ∧ l.head? = some a := by
  induction h with
  | last _ => exact ⟨.singleton _, rfl⟩
  | cons hnext _ ih =>
      refine ⟨List.isChain_cons.mpr ⟨fun y hy => ?_, ih.1⟩, rfl⟩
      cases ih.2.symm.trans hy
      exact hnext

/-- No point leads back to itself. -/
def Acyclic (next : α → Option α) : Prop := ∀ a, ¬Relation.TransGen (Step next) a a

omit [DecidableEq α] in
theorem Line.nodup (hacyclic : Acyclic next) (h : Line next a l) : l.Nodup := by
  induction h with
  | last _ => exact List.nodup_singleton _
  | cons hnext hline ih =>
      refine List.nodup_cons.mpr ⟨fun hmem => ?_, ih⟩
      exact hacyclic _ (.head' hnext (hline.mem_iff.mp hmem))

/-- Each point of a line is used up, since nothing after it leads back. -/
theorem Acyclic.exists_line (hacyclic : Acyclic next) {support : Finset α} {a : α}
    (hsupport : ∀ x, Relation.ReflTransGen (Step next) a x → next x ≠ none → x ∈ support) :
    ∃ l, Line next a l ∧ l.length ≤ support.card + 1 := by
  induction hcard : support.card generalizing support a with
  | zero =>
      have hnone : next a = none := by
        by_contra hne
        have hmem := hsupport a .refl hne
        rw [Finset.card_eq_zero.mp hcard] at hmem
        exact absurd hmem (Finset.notMem_empty a)
      exact ⟨[a], .last hnone, Nat.le_refl 1⟩
  | succ n ih =>
      cases hnext : next a with
      | none => exact ⟨[a], .last hnext, by simp⟩
      | some b =>
          have ha : a ∈ support := hsupport a .refl (by simp [hnext])
          have hrest (x : α) (hx : Relation.ReflTransGen (Step next) b x) (hne : next x ≠ none) :
              x ∈ support.erase a := by
            refine Finset.mem_erase.mpr ⟨?_, hsupport x (.head hnext hx) hne⟩
            rintro rfl
            exact hacyclic x (.head' hnext hx)
          obtain ⟨l, hline, hlength⟩ := ih hrest (by rw [Finset.card_erase_of_mem ha, hcard]; rfl)
          exact ⟨a :: l, .cons hnext hline, Nat.succ_le_succ hlength⟩

theorem follow_of_line (h : Line next a l) (hnodup : (seen ++ l).Nodup)
    (hfuel : l.length ≤ fuel) : follow next fuel seen (some a) = seen ++ l := by
  induction h generalizing seen fuel with
  | @last a hnone =>
      obtain ⟨fuel, rfl⟩ := Nat.exists_eq_add_one_of_ne_zero (Nat.ne_of_gt hfuel)
      have ha : a ∉ seen := fun ha =>
        List.disjoint_of_nodup_append hnodup ha (List.mem_singleton_self a)
      rw [follow, if_neg ha, hnone]
      cases fuel <;> rfl
  | @cons a b l hnext _ ih =>
      obtain ⟨fuel, rfl⟩ : ∃ n, fuel = n + 1 :=
        ⟨fuel - 1, (Nat.sub_add_cancel (Nat.one_le_of_lt hfuel)).symm⟩
      have ha : a ∉ seen := fun ha =>
        List.disjoint_of_nodup_append hnodup ha List.mem_cons_self
      rw [follow, if_neg ha, hnext, ih (by simpa using hnodup) (by simpa using hfuel),
        List.append_assoc]
      rfl

/-- Where nothing returns, a chase is a line. -/
theorem Acyclic.follow_line (hacyclic : Acyclic next) {support : Finset α}
    (hsupport : ∀ a, next a ≠ none → a ∈ support) (hfuel : support.card < fuel) (a : α) :
    Line next a (follow next fuel [] (some a)) := by
  obtain ⟨l, hline, hlength⟩ := hacyclic.exists_line (a := a) fun x _ => hsupport x
  rw [follow_of_line hline (by simpa using hline.nodup hacyclic) (hlength.trans hfuel)]
  exact hline

end Sage.Orbit
