import Sage.Library.Loop

/-!
# Library — lists of partial results

`flatMapM f` makes a list of what `f` makes of each element, or fails with the first failure.

* `flatMapM_refines` — computations that agree where they end give lists that do.
* `flatMapM_ends` — computations that all end give a list.
* `Gives` — a list of elements that all have a property.
* `allM_iff`, `foldlM_iff` — what a test or a fold over a list says, from what its steps say.
-/

namespace Loop

variable {α β : Type} {f f' : α → Option (List β)} {l : List α}

/-- What is made of each element, one after the other. -/
@[grind =] def flatMapM (f : α → Option (List β)) : List α → Option (List β)
  | [] => some []
  | a :: as =>
      match f a, flatMapM f as with
      | some bs, some rest => some (bs ++ rest)
      | _, _ => none

theorem flatMapM_refines (h : ∀ a ∈ l, Refines (f a) (f' a)) :
    Refines (flatMapM f l) (flatMapM f' l) := by
  induction l with
  | nil => exact .refl _
  | cons a as ih =>
      intro bs hbs
      have ih := ih fun a ha => h a (List.mem_cons_of_mem _ ha)
      rw [flatMapM] at hbs ⊢
      split at hbs
      · rename_i hf hrest
        rw [h a List.mem_cons_self _ hf, ih _ hrest]
        exact hbs
      · cases hbs

theorem flatMapM_congr (h : ∀ a ∈ l, f a = f' a) : flatMapM f l = flatMapM f' l := by
  induction l with
  | nil => rfl
  | cons a as ih =>
      rw [flatMapM, flatMapM, h a List.mem_cons_self,
        ih fun a ha => h a (List.mem_cons_of_mem _ ha)]

/-- Where every element gives a list, so does the whole. -/
theorem flatMapM_eq {g : α → List β} (h : ∀ a ∈ l, f a = some (g a)) :
    flatMapM f l = some (l.flatMap g) := by
  induction l with
  | nil => rfl
  | cons a as ih =>
      rw [flatMapM, h a List.mem_cons_self, ih fun a ha => h a (List.mem_cons_of_mem _ ha)]
      rfl

theorem Refines.bind {r r' : Option α} {k k' : α → Option β} (h : Refines r r')
    (hk : ∀ a, Refines (k a) (k' a)) : Refines (r.bind k) (r'.bind k') := by
  intro b hb
  obtain ⟨a, hr, hk'⟩ := Option.bind_eq_some_iff.mp hb
  rw [h a hr]
  exact hk a b hk'

/-- The computation has a result. -/
def Ends (r : Option α) : Prop := ∃ a, r = some a

theorem Ends.pure (a : α) : Ends (some a) := ⟨a, rfl⟩

theorem Ends.bind {r : Option α} {k : α → Option β} (h : Ends r) (hk : ∀ a, Ends (k a)) :
    Ends (r.bind k) := by
  obtain ⟨a, rfl⟩ := h
  exact hk a

theorem flatMapM_ends (h : ∀ a ∈ l, Ends (f a)) : Ends (flatMapM f l) := by
  induction l with
  | nil => exact .pure []
  | cons a as ih =>
      obtain ⟨bs, hf⟩ := h a List.mem_cons_self
      obtain ⟨rest, hrest⟩ := ih fun a ha => h a (List.mem_cons_of_mem _ ha)
      exact ⟨bs ++ rest, by rw [flatMapM, hf, hrest]⟩

theorem mem_flatMapM {bs : List β} (h : flatMapM f l = some bs) {a : α} (ha : a ∈ l) :
    ∃ cs, f a = some cs ∧ cs ⊆ bs := by
  induction l generalizing bs with
  | nil => exact absurd ha List.not_mem_nil
  | cons first as ih =>
      rw [flatMapM] at h
      split at h
      · rename_i cs rest hf hrest
        obtain rfl := Option.some.inj h
        rcases List.mem_cons.mp ha with rfl | ha
        · exact ⟨cs, hf, List.subset_append_left _ _⟩
        · obtain ⟨ds, hds, hsub⟩ := ih hrest ha
          exact ⟨ds, hds, fun b hb => List.mem_append_right _ (hsub hb)⟩
      · cases h

/-- One failure is enough. -/
theorem flatMapM_eq_none {a : α} (ha : a ∈ l) (h : f a = none) : flatMapM f l = none := by
  cases hl : flatMapM f l with
  | none => rfl
  | some bs =>
    obtain ⟨cs, hcs, -⟩ := mem_flatMapM hl ha
    rw [h] at hcs
    cases hcs

/-- The computation has a result, and all of it has a property. -/
def Gives (P : α → Prop) (r : Option (List α)) : Prop := ∃ l, r = some l ∧ ∀ a ∈ l, P a

theorem Gives.bind {P : α → Prop} {Q : β → Prop} {r : Option (List α)}
    {k : List α → Option (List β)} (h : Gives P r)
    (hk : ∀ l, (∀ a ∈ l, P a) → Gives Q (k l)) : Gives Q (r.bind k) := by
  obtain ⟨l, rfl, hl⟩ := h
  exact hk l hl

theorem flatMapM_gives {Q : β → Prop} (h : ∀ a ∈ l, Gives Q (f a)) : Gives Q (flatMapM f l) := by
  induction l with
  | nil => exact ⟨[], rfl, fun _ hb => absurd hb List.not_mem_nil⟩
  | cons a as ih =>
      obtain ⟨bs, hf, hbs⟩ := h a List.mem_cons_self
      obtain ⟨rest, hrest, hall⟩ := ih fun a ha => h a (List.mem_cons_of_mem _ ha)
      refine ⟨bs ++ rest, by rw [flatMapM, hf, hrest], fun b hb => ?_⟩
      exact (List.mem_append.mp hb).elim (hbs b) (hall b)

/-- A test of every element that ends, by what the single tests say. -/
theorem allM_iff {test : α → Option Bool} {P : α → Prop} {b : Bool}
    (h : ∀ a ∈ l, ∀ b, test a = some b → (b = true ↔ P a)) (hb : l.allM test = some b) :
    b = true ↔ ∀ a ∈ l, P a := by
  induction l generalizing b with
  | nil =>
      obtain rfl := Option.some.inj hb
      simp
  | cons a as ih =>
      rw [List.allM] at hb
      obtain ⟨first, hfirst, hb⟩ := Option.bind_eq_some_iff.mp hb
      have hP := h a List.mem_cons_self first hfirst
      cases first with
      | false =>
          obtain rfl := Option.some.inj hb
          simp only [Bool.false_eq_true, false_iff] at hP ⊢
          exact fun hall => hP (hall a List.mem_cons_self)
      | true =>
          rw [ih (fun a ha => h a (List.mem_cons_of_mem _ ha)) hb, List.forall_mem_cons]
          exact (and_iff_right (hP.mp rfl)).symm

/-- A property of a fold that each element keeps exactly where it satisfies `P`. -/
theorem foldlM_iff {σ : Type} {step : σ → α → Option σ} {I : σ → Prop} {P : α → Prop}
    {s s' : σ} (h : ∀ a ∈ l, ∀ s s', step s a = some s' → (I s' ↔ I s ∧ P a))
    (hs : l.foldlM step s = some s') : I s' ↔ I s ∧ ∀ a ∈ l, P a := by
  induction l generalizing s with
  | nil =>
      obtain rfl := Option.some.inj hs
      simp
  | cons a as ih =>
      rw [List.foldlM_cons] at hs
      obtain ⟨t, ht, hs⟩ := Option.bind_eq_some_iff.mp hs
      rw [ih (fun a ha => h a (List.mem_cons_of_mem _ ha)) hs, h a List.mem_cons_self s t ht,
        List.forall_mem_cons, and_assoc]

end Loop
