import Mathlib.Data.List.Sort
import Mathlib.Data.List.Destutter

/-!
# Library — the canonical list of a set of results

Sorting a list by a total order and dropping repetitions next to each other leaves a list that
depends on the members of the original only.

* `mem_canonical`, `canonical_nodup` — its members are those of the original, each once.
* `filter_canonical_congr` — a part of it depends on the members of that part only.
* `find?_key_eq_some` — the entry with a key, in a list where keys do not repeat.
-/

namespace Selection

variable {α : Type} [DecidableEq α] (r : α → α → Prop) [DecidableRel r]

/-- A list sorted by `r`, without repetitions next to each other. -/
def canonical (l : List α) : List α := (l.insertionSort r).destutter (· ≠ ·)

omit [DecidableEq α] in
theorem mem_destutter'_ne [DecidableEq α] {a b : α} :
    ∀ {l : List α}, a ∈ l.destutter' (· ≠ ·) b ↔ a = b ∨ a ∈ l
  | [] => by simp
  | c :: l => by
      by_cases h : b ≠ c
      · rw [List.destutter'_cons_pos _ h, List.mem_cons, mem_destutter'_ne, List.mem_cons]
      · rw [List.destutter'_cons_neg _ h, mem_destutter'_ne, List.mem_cons, not_not.mp h]
        tauto

theorem mem_destutter_ne {a : α} {l : List α} : a ∈ l.destutter (· ≠ ·) ↔ a ∈ l := by
  cases l with
  | nil => simp
  | cons b l => rw [List.destutter_cons', mem_destutter'_ne, List.mem_cons]

@[simp] theorem mem_canonical {a : α} {l : List α} : a ∈ canonical r l ↔ a ∈ l := by
  rw [canonical, mem_destutter_ne, List.mem_insertionSort]

section Order

variable [Std.Total r] [IsTrans α r] [Std.Antisymm r]

theorem pairwise_canonical (l : List α) :
    (canonical r l).Pairwise fun a b => r a b ∧ a ≠ b := by
  have hsort : (canonical r l).Pairwise r :=
    (List.pairwise_insertionSort r l).sublist (List.destutter_sublist _ _)
  have hchain : (canonical r l).IsChain fun a b => r a b ∧ a ≠ b := by
    refine List.isChain_iff_forall_rel_of_append_cons_cons.mpr fun a b l₁ l₂ h => ⟨?_, ?_⟩
    · exact List.isChain_iff_forall_rel_of_append_cons_cons.mp hsort.isChain h
    · exact List.isChain_iff_forall_rel_of_append_cons_cons.mp (List.isChain_destutter _ _) h
  have : IsTrans α fun a b => r a b ∧ a ≠ b := by
    refine ⟨fun a b c hab hbc => ⟨IsTrans.trans a b c hab.1 hbc.1, ?_⟩⟩
    rintro rfl
    exact hab.2 (antisymm (r := r) hab.1 hbc.1)
  exact List.isChain_iff_pairwise.mp hchain

theorem canonical_nodup (l : List α) : (canonical r l).Nodup :=
  (pairwise_canonical r l).imp And.right

/-- Which members of the canonical list satisfy `p` depends on the members that do. -/
theorem filter_canonical_congr {p : α → Bool} {l l' : List α}
    (h : ∀ a, p a → (a ∈ l ↔ a ∈ l')) :
    (canonical r l).filter p = (canonical r l').filter p := by
  have hperm : ((canonical r l).filter p).Perm ((canonical r l').filter p) := by
    refine (List.perm_ext_iff_of_nodup ((canonical_nodup r l).filter p)
      ((canonical_nodup r l').filter p)).mpr fun a => ?_
    simp only [List.mem_filter, mem_canonical]
    exact and_congr_left (h a)
  refine hperm.eq_of_pairwise (fun a b _ _ hab hba => antisymm (r := r) hab hba) ?_ ?_
  · exact ((pairwise_canonical r l).imp And.left).filter p
  · exact ((pairwise_canonical r l').imp And.left).filter p

end Order

/-- The first entry with a key is the only one, where no two entries share a key. -/
theorem find?_key_eq_some {β : Type} {l : List β} {f : β → α} {k : α} {b : β}
    (h : (l.map f).Nodup) : l.find? (fun b => f b = k) = some b ↔ b ∈ l ∧ f b = k := by
  constructor
  · intro hfind
    exact ⟨List.mem_of_find?_eq_some hfind, by simpa using List.find?_some hfind⟩
  · rintro ⟨hmem, rfl⟩
    induction l with
    | nil => exact absurd hmem List.not_mem_nil
    | cons a l ih =>
        rw [List.map_cons, List.nodup_cons] at h
        rcases List.mem_cons.mp hmem with rfl | hmem
        · rw [List.find?_cons_of_pos (by simp)]
        · -- an earlier entry with the key would be a second one
          have hne : f a ≠ f b := fun heq => h.1 (heq ▸ List.mem_map_of_mem hmem)
          rw [List.find?_cons_of_neg (by simpa using hne)]
          exact ih h.2 hmem

end Selection
