import Mathlib.Data.List.Basic
import Mathlib.Logic.Function.Basic

/-!
# Library — the occurrences of a label

Elements of a list with the same label are told apart by the number of elements before them that
have it too.

* `number` — the labels of a list with their numbers, counted while the list is read.
* `pick` — the element with a label and a number, counted again.
* `pick_of_number` — the element that was numbered is the element that is picked.
* `number_nodup` — no two elements get the same label and number.
-/

namespace Occurrence

variable {α κ : Type} [DecidableEq κ] (label : α → κ)

/-- One more element with the label `l`. -/
def count (seen : κ → Nat) (l : κ) : κ → Nat := Function.update seen l (seen l + 1)

@[grind =] def number : (κ → Nat) → List α → List (κ × Nat)
  | _, [] => []
  | seen, a :: as => (label a, seen (label a)) :: number (count seen (label a)) as

def pick (key : κ × Nat) : Nat → List α → Option α
  | _, [] => none
  | occurrence, a :: as =>
      if label a ≠ key.1 then pick key occurrence as
      else if occurrence = key.2 then some a
      else pick key (occurrence + 1) as

variable {label} {seen : κ → Nat} {key : κ × Nat}

@[simp] theorem count_self (l : κ) : count seen l l = seen l + 1 := by simp [count]

theorem count_of_ne {l m : κ} (h : m ≠ l) : count seen l m = seen m := by simp [count, h]

theorem le_count (l m : κ) : seen m ≤ count seen l m := by
  by_cases h : m = l
  · subst h
    simp
  · exact Nat.le_of_eq (count_of_ne h).symm

@[simp] theorem length_number (as : List α) : (number label seen as).length = as.length := by
  induction as generalizing seen with
  | nil => rfl
  | cons a as ih => simp [number, ih]

/-- The numbers go on from what has been counted. -/
theorem le_of_mem_number {as : List α} (h : key ∈ number label seen as) : seen key.1 ≤ key.2 := by
  induction as generalizing seen with
  | nil => cases h
  | cons a as ih =>
      rcases List.mem_cons.mp h with rfl | h
      · exact Nat.le_refl _
      · exact Nat.le_trans (le_count (label a) key.1) (ih h)

theorem number_nodup (as : List α) : (number label seen as).Nodup := by
  induction as generalizing seen with
  | nil => exact List.nodup_nil
  | cons a as ih =>
      refine List.nodup_cons.mpr ⟨fun h => ?_, ih⟩
      have hlater := le_of_mem_number h
      simp only [count_self] at hlater
      exact Nat.not_succ_le_self _ hlater

theorem label_of_number {as : List α} {i : Nat} (h : (number label seen as)[i]? = some key) :
    ∃ a, as[i]? = some a ∧ label a = key.1 := by
  induction as generalizing seen i with
  | nil => simp [number] at h
  | cons a as ih =>
      cases i with
      | zero =>
          simp only [number, List.getElem?_cons_zero, Option.some.injEq] at h
          exact ⟨a, rfl, by rw [← h]⟩
      | succ i => exact ih (by simpa [number] using h)

theorem pick_of_number {as : List α} {i : Nat} (h : (number label seen as)[i]? = some key) :
    pick label key (seen key.1) as = as[i]? := by
  induction as generalizing seen i with
  | nil => simp [number] at h
  | cons a as ih =>
      cases i with
      | zero =>
          simp only [number, List.getElem?_cons_zero, Option.some.injEq] at h
          subst h
          simp [pick]
      | succ i =>
          have hrest : (number label (count seen (label a)) as)[i]? = some key := by
            simpa [number] using h
          have hpick := ih hrest
          by_cases hlabel : label a = key.1
          · have hle := le_of_mem_number (List.mem_of_getElem? hrest)
            rw [hlabel, count_self] at hle hpick
            -- The element that is skipped here was counted there.
            rw [pick, if_neg (not_not.mpr hlabel), if_neg (Nat.ne_of_lt hle), hpick]
            rfl
          · rw [count_of_ne (Ne.symm hlabel)] at hpick
            rw [pick, if_pos hlabel, hpick]
            rfl

end Occurrence
