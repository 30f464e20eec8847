import Mathlib.Data.Set.Basic

/-!
# Library — rounds in layers

A round gives each index a value, computed from the values of the round before.  When the indices
stand in layers, and the value of an index is determined by the values one round earlier of the
indices below it, each layer settles one round after those below it.

* `Strata.Determined` — the values of an index depend on the layers below.
* `Strata.Determined.settles` — from some round on every value stays.
-/

namespace Strata

variable {ι ν : Type} {layer : ι → Nat} {uses : Set ι} {value : Nat → ι → ν}

/-- Rounds that agree below an index are followed by rounds that agree on it. -/
def Determined (layer : ι → Nat) (uses : Set ι) (value : Nat → ι → ν) : Prop :=
  ∀ n m, ∀ i ∈ uses, (∀ j ∈ uses, layer j < layer i → value n j = value m j) →
    value (n + 1) i = value (m + 1) i

theorem Determined.stays (h : Determined layer uses value) (k : Nat) :
    ∀ i ∈ uses, layer i < k → ∀ n m, k ≤ n → k ≤ m → value n i = value m i := by
  induction k with
  | zero => exact fun i _ hi => absurd hi (Nat.not_lt_zero _)
  | succ k ih =>
      intro i hi hik n m hn hm
      obtain ⟨n, rfl⟩ := Nat.exists_eq_add_of_le' (Nat.le_trans (Nat.le_add_left 1 k) hn)
      obtain ⟨m, rfl⟩ := Nat.exists_eq_add_of_le' (Nat.le_trans (Nat.le_add_left 1 k) hm)
      -- Everything below `i` has settled by round `k`.
      refine h n m i hi fun j hj hji => ?_
      exact ih j hj (Nat.lt_of_lt_of_le hji (Nat.le_of_lt_succ hik)) n m
        (Nat.le_of_succ_le_succ hn) (Nat.le_of_succ_le_succ hm)

/-- With finitely many layers, the round after the last of them changes nothing. -/
theorem Determined.settles (h : Determined layer uses value) {height : Nat}
    (hb : ∀ i ∈ uses, layer i < height) : ∀ i ∈ uses, value (height + 1) i = value height i :=
  fun i hi => h.stays height i hi (hb i hi) _ _ (Nat.le_succ _) (Nat.le_refl _)

end Strata
