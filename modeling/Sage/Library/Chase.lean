import Mathlib.Data.List.Nodup
import Mathlib.Data.List.Perm.Subperm
import Mathlib.Logic.Function.Iterate

/-!
# Library — following parent pointers

A map `p : α → α` is read as a parent pointer; a *root* is its own parent.  `chase p n a`
follows at most `n` pointers from `a` and stops at a root.  `Reaches p a r` says that `r` is
the root `a` leads to, and `Grounded p` that every element leads to one.

* `chase_eq_of_reaches` — a chase with as many steps as there are moved points arrives.
* `grounded_update`, `reaches_update` — pointing an element at a root of another class keeps
  every chain finite, and sends there exactly the elements whose chain passed through it.
-/

namespace Chase

variable {α : Type} {p : α → α}

/-- `r` is the root that `a` leads to. -/
inductive Reaches (p : α → α) : α → α → Prop
  | root {r : α} : p r = r → Reaches p r r
  | step {a r : α} : p a ≠ a → Reaches p (p a) r → Reaches p a r

/-- Every element leads to a root. -/
def Grounded (p : α → α) : Prop := ∀ a, ∃ r, Reaches p a r

theorem Reaches.is_root {a r : α} (h : Reaches p a r) : p r = r := by
  induction h with
  | root h => exact h
  | step _ _ ih => exact ih

theorem Reaches.unique {a r s : α} (h : Reaches p a r) (h' : Reaches p a s) : r = s := by
  induction h with
  | root hr =>
      cases h' with
      | root => rfl
      | step hne => exact absurd hr hne
  | step hne _ ih =>
      cases h' with
      | root hr => exact absurd hr hne
      | step _ h' => exact ih h'

/-- An element and its parent lead to the same root. -/
theorem reaches_parent {a r : α} : Reaches p (p a) r ↔ Reaches p a r := by
  by_cases h : p a = a
  · rw [h]
  · refine ⟨Reaches.step h, fun h' => ?_⟩
    cases h' with
    | root hr => exact absurd hr h
    | step _ h' => exact h'

theorem reaches_root_iff {r s : α} (h : p r = r) : Reaches p r s ↔ s = r := by
  refine ⟨fun h' => h'.unique (.root h), ?_⟩
  rintro rfl
  exact .root h

/-! ### Chasing with a budget -/

section Chase

variable [DecidableEq α]

/-- Follow at most `n` parent pointers from `a`, stopping at a root. -/
@[grind =] def chase (p : α → α) : Nat → α → α
  | 0, a => a
  | n + 1, a => if p a = a then a else chase p n (p a)

theorem chase_of_root {n : Nat} {a : α} (h : p a = a) : chase p n a = a := by
  cases n <;> simp [chase, h]

/-- A property shared by every element and its parent is shared by an element and the end of
its chase. -/
theorem chase_invariant {β : Type} (f : α → β) (h : ∀ a, f (p a) = f a) (n : Nat) (a : α) :
    f (chase p n a) = f a := by
  induction n generalizing a with
  | zero => rfl
  | succ n ih =>
      simp only [chase]
      split
      · rfl
      · rw [ih, h]

theorem chase_succ_of_moved {n : Nat} {a : α} (h : p a ≠ a) :
    chase p (n + 1) a = chase p n (p a) := by
  simp [chase, h]

/-- A chase that ends at a root was on the way to it. -/
theorem reaches_chase {n : Nat} {a : α} (h : p (chase p n a) = chase p n a) :
    Reaches p a (chase p n a) := by
  induction n generalizing a with
  | zero => exact .root h
  | succ n ih =>
      by_cases ha : p a = a
      · rw [chase_of_root ha]
        exact .root ha
      · rw [chase_succ_of_moved ha] at h ⊢
        exact .step ha (ih h)

/-- The points visited on the way to the root: they are moved, they are distinct, and there
are as many as the chase needs steps. -/
theorem Reaches.exists_path {a r : α} (h : Reaches p a r) :
    ∃ path : List α, path.Nodup ∧ (∀ b ∈ path, p b ≠ b) ∧
      (∀ m, chase p m a = r ↔ path.length ≤ m) ∧
      ∀ b ∈ path, ∃ k ≤ path.length, chase p k b = r := by
  induction h with
  | root hr => exact ⟨[], by simp, by simp, by simp [chase_of_root hr], by simp⟩
  | @step a r hne h ih =>
      obtain ⟨path, hnd, hmoved, hlen, hback⟩ := ih
      have har : a ≠ r := fun e => hne (e ▸ h.is_root)
      have hlen' : ∀ m, chase p m a = r ↔ (a :: path).length ≤ m := by
        rintro (_ | m)
        · simp [chase, har]
        · rw [chase_succ_of_moved hne, hlen]; simp
      -- a path through `a` would make the chase from `p a` shorter than it is
      have hmem : a ∉ path := by
        intro ha
        obtain ⟨k, hk, hkr⟩ := hback a ha
        have := (hlen' k).mp hkr
        simp only [List.length_cons] at this; omega
      refine ⟨a :: path, List.nodup_cons.mpr ⟨hmem, hnd⟩, ?_, hlen', ?_⟩
      · rintro b hb
        rcases List.mem_cons.mp hb with rfl | hb
        · exact hne
        · exact hmoved b hb
      · rintro b hb
        rcases List.mem_cons.mp hb with rfl | hb
        · exact ⟨_, Nat.le_refl _, (hlen' _).mpr (Nat.le_refl _)⟩
        · obtain ⟨k, hk, hkr⟩ := hback b hb
          exact ⟨k, by simp only [List.length_cons]; omega, hkr⟩

/-- A budget of one step for each moved point is enough to arrive at the root. -/
theorem chase_eq_of_reaches {moved : List α} (hm : ∀ a, p a ≠ a → a ∈ moved) {n : Nat}
    (hn : moved.length ≤ n) {a r : α} (h : Reaches p a r) : chase p n a = r := by
  obtain ⟨path, hnd, hmoved, hlen, -⟩ := h.exists_path
  have hsub : path.length ≤ moved.length :=
    (hnd.subperm fun b hb => hm b (hmoved b hb)).length_le
  exact (hlen n).mpr (Nat.le_trans hsub hn)

end Chase

/-! ### Re-pointing an element -/

section Update

variable [DecidableEq α]

/-- Pointing `d` at a root other than itself: an element leads where it led before, or, when
its chain passes through `d`, to the new root. -/
theorem reaches_update {d r : α} (hr : p r = r) (hne : r ≠ d) {a s : α} (h : Reaches p a s) :
    Reaches (Function.update p d r) a s ∨ Reaches (Function.update p d r) a r := by
  have hroot : Reaches (Function.update p d r) r r := .root (by simp [hne, hr])
  by_cases had : a = d
  · subst had
    exact .inr (reaches_parent.mp (by simpa using hroot))
  · induction h with
    | root hs => exact .inl (.root (by simp [had, hs]))
    | @step a s hmoved _ ih =>
        have hp : Function.update p d r a = p a := by simp [had]
        by_cases hpd : p a = d
        · refine .inr (reaches_parent.mp (reaches_parent.mp ?_))
          rwa [hp, hpd, Function.update_self]
        · exact (ih hpd).imp (fun h => reaches_parent.mp (hp ▸ h))
            (fun h => reaches_parent.mp (hp ▸ h))

theorem grounded_update {d r : α} (hp : Grounded p) (hr : p r = r) (hne : r ≠ d) :
    Grounded (Function.update p d r) := by
  intro a
  obtain ⟨s, hs⟩ := hp a
  rcases reaches_update hr hne hs with h | h
  · exact ⟨s, h⟩
  · exact ⟨r, h⟩

/-- Pointing a root `d` at another root sends exactly the class of `d` there. -/
theorem reaches_update_root {d r : α} (hd : p d = d) (hr : p r = r) (hne : r ≠ d) {a s : α}
    (h : Reaches p a s) : Reaches (Function.update p d r) a (if s = d then r else s) := by
  induction h with
  | @root s hs =>
      by_cases hsd : s = d
      · subst hsd
        refine reaches_parent.mp ?_
        simpa using Reaches.root (p := Function.update p s r) (by simp [hne, hr])
      · simpa [hsd] using Reaches.root (p := Function.update p d r) (by simp [hsd, hs])
  | @step a s hmoved _ ih =>
      have had : a ≠ d := fun e => hmoved (e ▸ hd)
      refine reaches_parent.mp ?_
      simpa [had] using ih

/-- Pointing an element at its own root changes where nothing leads. -/
theorem reaches_update_self {d r : α} (hd : Reaches p d r) (hne : r ≠ d) {a s : α}
    (h : Reaches p a s) : Reaches (Function.update p d r) a s := by
  have hroot : Function.update p d r r = r := by simp [hne, hd.is_root]
  induction h with
  | @root s hs =>
      have hsd : s ≠ d := fun e => hne (hd.unique (e ▸ .root hs))
      exact .root (by simp [hsd, hs])
  | @step a s hmoved h ih =>
      by_cases had : a = d
      · subst had
        obtain rfl := hd.unique (.step hmoved h)
        exact reaches_parent.mp (by simpa using Reaches.root hroot)
      · exact reaches_parent.mp (by simpa [had] using ih)

end Update

end Chase
