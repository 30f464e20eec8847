import Mathlib.Data.List.Basic

/-!
# Library — loops that may fail or run out of fuel

A computation from a state gives nothing when its fuel runs out, and otherwise a result, `ok`
or `error`, with the state it reached; a failed computation keeps the writes it made.
`forEach f` runs `f` on each element of a list and stops at the first error.

* `forEach_invariant` — a relation that every body keeps is kept by the loop.
* `forEach_mono` — a body that agrees wherever it terminates gives a loop that does.
* `AllAlong.foldl` — an invariant of a fold whose steps all meet a condition.
-/

namespace Loop

variable {α ε σ : Type}

/-- The outcome of a computation: none without fuel, else a result and the state reached. -/
abbrev Outcome (ε σ α : Type) := Option (Except ε α × σ)

/-- Continue after a success, stop at an error. -/
@[grind =] def andThen {β : Type} (r : Outcome ε σ α) (k : α → σ → Outcome ε σ β) : Outcome ε σ β :=
  match r with
  | none => none
  | some (.error e, s) => some (.error e, s)
  | some (.ok a, s) => k a s

/-- Run `f` on each element in turn, until one fails. -/
@[grind =] def forEach (f : α → σ → Outcome ε σ Unit) : List α → σ → Outcome ε σ Unit
  | [], s => some (.ok (), s)
  | a :: as, s => andThen (f a s) fun _ s => forEach f as s

variable {β : Type} {r : Outcome ε σ α} {k : α → σ → Outcome ε σ β}

theorem andThen_eq_ok {b : β} {s : σ} :
    andThen r k = some (.ok b, s) ↔ ∃ a t, r = some (.ok a, t) ∧ k a t = some (.ok b, s) := by
  rcases r with _ | ⟨_ | a, t⟩ <;> simp [andThen]

theorem andThen_eq_error {e : ε} {s : σ} :
    andThen r k = some (.error e, s) ↔
      r = some (.error e, s) ∨ ∃ a t, r = some (.ok a, t) ∧ k a t = some (.error e, s) := by
  rcases r with _ | ⟨_ | a, t⟩ <;> simp [andThen]

/-- A computation that succeeded, by what it evaluates to. -/
theorem eq_some_ok_of_isOk (s : σ) (h : r.map (·.1.isOk) = some true) :
    ∃ a, r = some (.ok a, (r.map Prod.snd).getD s) := by
  rcases r with _ | ⟨_ | a, t⟩
  · cases h
  · cases h
  · exact ⟨a, rfl⟩

/-- A continuation that does nothing. -/
theorem andThen_pure {r : Outcome ε σ Unit} : andThen r (fun _ s => some (.ok (), s)) = r := by
  rcases r with _ | ⟨_ | a, t⟩ <;> rfl

/-- A transitive relation kept by both parts of a sequence is kept by the sequence. -/
theorem andThen_invariant {R : σ → σ → Prop} (htrans : ∀ {s t u}, R s t → R t u → R s u)
    {s u : σ} {b : Except ε β} (hr : ∀ res t, r = some (res, t) → R s t)
    (hk : ∀ a t res u, r = some (.ok a, t) → k a t = some (res, u) → R t u)
    (h : andThen r k = some (b, u)) : R s u := by
  rcases b with e | b
  · rcases andThen_eq_error.mp h with h | ⟨a, t, h, h'⟩
    · exact hr _ u h
    · exact htrans (hr _ t h) (hk a t _ u h h')
  · obtain ⟨a, t, h, h'⟩ := andThen_eq_ok.mp h
    exact htrans (hr _ t h) (hk a t _ u h h')

theorem andThen_ne_none (hr : r ≠ none) (hk : ∀ a t, r = some (.ok a, t) → k a t ≠ none) :
    andThen r k ≠ none := by
  rcases r with _ | ⟨_ | a, t⟩
  · exact absurd rfl hr
  · simp [andThen]
  · exact hk a t rfl

/-- Agreement of two computations wherever the first one ends. -/
def Refines (r r' : Option α) : Prop := ∀ x, r = some x → r' = some x

theorem Refines.refl (r : Option α) : Refines r r := fun _ h => h

theorem Refines.eq_of_ne_none {r r' : Option α} (h : Refines r r') (hne : r ≠ none) : r' = r := by
  obtain ⟨x, hx⟩ := Option.ne_none_iff_exists'.mp hne
  rw [hx, h x hx]

theorem Refines.andThen {r' : Outcome ε σ α} {k' : α → σ → Outcome ε σ β} (hr : Refines r r')
    (hk : ∀ a s, Refines (k a s) (k' a s)) : Refines (andThen r k) (andThen r' k') := by
  rcases r with _ | ⟨_ | a, t⟩
  · intro x hx; simp [Loop.andThen] at hx
  · rw [hr _ rfl]; exact Refines.refl _
  · rw [hr _ rfl]; exact hk a t

/-- A loop agrees with the loop over a body that agrees. -/
theorem forEach_mono {f f' : α → σ → Outcome ε σ Unit} (h : ∀ a s, Refines (f a s) (f' a s))
    (as : List α) (s : σ) : Refines (forEach f as s) (forEach f' as s) := by
  induction as generalizing s with
  | nil => exact Refines.refl _
  | cons a as ih => exact (h a s).andThen fun _ s => ih s

/-- A loop ends when its body does on every state that meets an invariant of the body. -/
theorem forEach_ne_none {f : α → σ → Outcome ε σ Unit} {I : σ → Prop} {as : List α}
    (h : ∀ a ∈ as, ∀ s, I s → f a s ≠ none ∧ ∀ r t, f a s = some (r, t) → I t) {s : σ}
    (hs : I s) : forEach f as s ≠ none := by
  induction as generalizing s with
  | nil => simp [forEach]
  | cons a as ih =>
      obtain ⟨hne, hinv⟩ := h a List.mem_cons_self s hs
      refine andThen_ne_none hne fun _ t ht => ?_
      exact ih (fun b hb => h b (List.mem_cons_of_mem _ hb)) (hinv _ t ht)

/-- A loop ends with enough fuel when its body does, on every state that meets an invariant that
successful runs of the body keep. -/
theorem forEach_ends {f : Nat → α → σ → Outcome ε σ Unit}
    (hmono : ∀ n m a s, n ≤ m → Refines (f n a s) (f m a s)) {I : σ → Prop} {as : List α}
    (h : ∀ a ∈ as, ∀ s, I s → (∃ n, f n a s ≠ none) ∧
      ∀ n t, f n a s = some (.ok (), t) → I t) {s : σ} (hs : I s) :
    ∃ n, forEach (f n) as s ≠ none := by
  induction as generalizing s with
  | nil => exact ⟨0, by simp [forEach]⟩
  | cons a as ih =>
      obtain ⟨⟨n, hn⟩, hinv⟩ := h a List.mem_cons_self s hs
      have ih := fun t ht => ih (fun b hb => h b (List.mem_cons_of_mem _ hb)) (s := t) ht
      rcases hr : f n a s with _ | ⟨e | _, t⟩
      · exact absurd hr hn
      · exact ⟨n, by simp [forEach, andThen, hr]⟩
      · obtain ⟨m, hm⟩ := ih t (hinv n t hr)
        -- the larger of the two budgets is enough for the head and for the rest
        refine ⟨max n m, ?_⟩
        rw [forEach, hmono n _ a s (Nat.le_max_left n m) _ hr, andThen,
          (forEach_mono (fun b u => hmono m _ b u (Nat.le_max_right n m)) as t).eq_of_ne_none hm]
        exact hm

/-- A transitive relation between states that every run of the body keeps is kept by the
loop, whatever its result. -/
theorem forEach_invariant {f : α → σ → Outcome ε σ Unit} {R : σ → σ → Prop}
    (hrefl : ∀ s, R s s) (htrans : ∀ {s t u}, R s t → R t u → R s u) {as : List α}
    (h : ∀ a ∈ as, ∀ s r t, f a s = some (r, t) → R s t) {s t : σ} {r : Except ε Unit}
    (hrun : forEach f as s = some (r, t)) : R s t := by
  induction as generalizing s t r with
  | nil =>
      obtain ⟨-, rfl⟩ := Prod.mk.inj (Option.some.inj hrun)
      exact hrefl s
  | cons a as ih =>
      refine andThen_invariant (R := R) htrans
        (fun res t hf => h a List.mem_cons_self s res t hf) (fun _ t res u _ hrest => ?_) hrun
      exact ih (fun b hb => h b (List.mem_cons_of_mem _ hb)) hrest

/-! ### Folds whose steps meet a condition -/

/-- The condition holds of every element, in the state the fold reaches it in. -/
def AllAlong (f : σ → α → σ) (C : σ → α → Prop) : σ → List α → Prop
  | _, [] => True
  | s, a :: as => C s a ∧ AllAlong f C (f s a) as

instance AllAlong.decidable {f : σ → α → σ} {C : σ → α → Prop} [∀ s a, Decidable (C s a)] :
    ∀ (s : σ) (as : List α), Decidable (AllAlong f C s as)
  | _, [] => inferInstanceAs (Decidable True)
  | s, a :: as =>
      have : Decidable (AllAlong f C (f s a) as) := AllAlong.decidable (f s a) as
      inferInstanceAs (Decidable (_ ∧ _))

/-- An invariant over the rest of the list, kept by every step that meets the condition. -/
theorem AllAlong.foldl {f : σ → α → σ} {C : σ → α → Prop} {I : List α → σ → Prop}
    (hstep : ∀ s a as, I (a :: as) s → C s a → I as (f s a)) {s : σ} {as : List α}
    (h : AllAlong f C s as) (hs : I as s) : I [] (as.foldl f s) := by
  induction as generalizing s with
  | nil => exact hs
  | cons a as ih => exact ih h.2 (hstep s a as hs h.1)

end Loop
