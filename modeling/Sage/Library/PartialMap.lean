import Mathlib.Logic.Function.Basic

/-!
# Library — maps with finitely many updates

A map is the function that looks a key up.  Nothing depends on the order of its entries.
-/

/-- A map from keys to values. -/
abbrev PartialMap (α β : Type) := α → Option β

namespace PartialMap

variable {α β : Type} [DecidableEq α]

def empty : PartialMap α β := fun _ => none

def insert (m : PartialMap α β) (a : α) (b : β) : PartialMap α β := Function.update m a (some b)

def remove (m : PartialMap α β) (a : α) : PartialMap α β := Function.update m a none

/-- Keep the entries whose key satisfies `keep`. -/
def retain (m : PartialMap α β) (keep : α → Bool) : PartialMap α β :=
  fun a => if keep a then m a else none

/-- Add the entries of `n`, which replace those of `m`. -/
def extend (m n : PartialMap α β) : PartialMap α β := fun a => (n a).or (m a)

variable {m n : PartialMap α β} {a c : α} {b b' : β} {keep : α → Bool}

/-- A key is in the map. -/
@[grind =] def Has (m : PartialMap α β) (a : α) : Prop := (m a).isSome

omit [DecidableEq α] in
@[simp] theorem not_has_empty : ¬Has (empty : PartialMap α β) a := by simp [Has, empty]

omit [DecidableEq α] in
theorem Has.of_eq (h : m a = some b) : m.Has a := by simp [Has, h]

@[simp] theorem has_insert : (m.insert a b).Has c ↔ c = a ∨ m.Has c := by
  by_cases h : c = a
  · subst h
    simp [Has, insert]
  · simp [Has, insert, h]

@[simp] theorem has_remove : (m.remove a).Has c ↔ c ≠ a ∧ m.Has c := by
  by_cases h : c = a
  · subst h
    simp [Has, remove]
  · simp [Has, remove, h]

omit [DecidableEq α] in
@[simp] theorem has_retain : (m.retain keep).Has a ↔ keep a = true ∧ m.Has a := by
  by_cases h : keep a
  · simp [Has, retain, h]
  · simp [Has, retain, h]

omit [DecidableEq α] in
@[simp] theorem has_extend : (m.extend n).Has a ↔ n.Has a ∨ m.Has a := by
  cases h : n a <;> simp [Has, extend, h]

theorem insert_eq_some (h : (m.insert a b) c = some b') :
    c = a ∧ b' = b ∨ c ≠ a ∧ m c = some b' := by
  by_cases hc : c = a
  · subst hc
    simp only [insert, Function.update_self, Option.some.injEq] at h
    exact .inl ⟨rfl, h.symm⟩
  · rw [insert, Function.update_of_ne hc] at h
    exact .inr ⟨hc, h⟩

end PartialMap
