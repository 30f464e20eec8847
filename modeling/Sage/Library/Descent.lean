import Mathlib.Data.Finset.Card
import Mathlib.Data.Finset.Filter
import Mathlib.Data.Set.Finite.Lattice
import Mathlib.Logic.Relation

/-!
# Library — walks down a tree

Each point has finitely many points below it, as a list.  A walk goes down from a point with fuel
for its depth.

* `Within` — the depth below a point is bounded.
* `exists_within_iff` — it is exactly if no chain goes down forever; `Within.finite` — then finitely
  many points are below.
* `foldlM_ends` — a walk over a list ends if it ends on each of its points; `foldlM_covers` — what
  its result says about them.
* `acc_of_acyclic` — on finitely many points, no chain goes down forever where none returns.
-/

namespace Sage.Library.Descent

variable {α : Type}

/-- One point is below another. -/
def Below (children : α → List α) (b a : α) : Prop := b ∈ children a

def Within (children : α → List α) : Nat → α → Prop
  | 0, _ => False
  | depth + 1, a => ∀ b ∈ children a, Within children depth b

variable {children : α → List α} {a b : α}

theorem Within.mono : ∀ {n m : Nat} {a : α}, Within children n a → n ≤ m → Within children m a
  | 0, _, _, h, _ => h.elim
  | _ + 1, 0, _, _, hle => absurd hle (Nat.not_succ_le_zero _)
  | _ + 1, _ + 1, _, h, hle => fun b hb => (h b hb).mono (Nat.le_of_succ_le_succ hle)

theorem Within.acc : ∀ {n : Nat} {a : α}, Within children n a → Acc (Below children) a
  | 0, _, h => h.elim
  | _ + 1, a, h => .intro a fun b hb => (h b hb).acc

theorem Within.finite : ∀ {n : Nat} {a : α}, Within children n a →
    {b | Relation.ReflTransGen (fun a b => b ∈ children a) a b}.Finite
  | 0, _, h => h.elim
  | n + 1, a, h => by
      have hbelow : (⋃ b ∈ {b | b ∈ children a},
          {c | Relation.ReflTransGen (fun a b => b ∈ children a) b c}).Finite :=
        (List.finite_toSet (children a)).biUnion fun b hb => (h b hb).finite
      refine (hbelow.insert a).subset fun c hc => ?_
      rcases Relation.ReflTransGen.cases_head hc with rfl | ⟨b, hb, hbc⟩
      · exact Set.mem_insert a _
      · exact Set.mem_insert_of_mem a (Set.mem_biUnion hb hbc)

/-- A bound for the points of a list. -/
theorem exists_within_all : ∀ {as : List α}, (∀ a ∈ as, ∃ n, Within children n a) →
    ∃ n, ∀ a ∈ as, Within children n a
  | [], _ => ⟨0, nofun⟩
  | a :: as, h => by
      obtain ⟨n, hn⟩ := h a (List.mem_cons_self ..)
      obtain ⟨m, hm⟩ := exists_within_all fun b hb => h b (List.mem_cons_of_mem a hb)
      refine ⟨max n m, ?_⟩
      rintro b (_ | ⟨_, hb⟩)
      · exact hn.mono (Nat.le_max_left n m)
      · exact (hm b hb).mono (Nat.le_max_right n m)

theorem exists_within_iff : (∃ n, Within children n a) ↔ Acc (Below children) a := by
  constructor
  · rintro ⟨n, h⟩
    exact h.acc
  · intro h
    induction h with
    | intro a _ ih =>
        obtain ⟨n, hn⟩ := exists_within_all ih
        exact ⟨n + 1, hn⟩

theorem foldlM_ends {β : Type} {f : β → α → Option β} : ∀ {as : List α} {b : β},
    (∀ a ∈ as, ∀ b, f b a ≠ none) → as.foldlM f b ≠ none
  | [], _, _ => by simp
  | a :: as, b, h => by
      obtain ⟨c, hc⟩ := Option.ne_none_iff_exists'.mp (h a (List.mem_cons_self ..) b)
      rw [List.foldlM_cons, hc]
      exact foldlM_ends fun a' ha' => h a' (List.mem_cons_of_mem a ha')

theorem ends_of_foldlM {β : Type} {f : β → α → Option β} : ∀ {as : List α} {b : β},
    as.foldlM f b ≠ none → ∀ a ∈ as, ∃ b, f b a ≠ none
  | [], _, _ => nofun
  | a :: as, b, h => by
      rw [List.foldlM_cons] at h
      cases hc : f b a with
      | none => rw [hc] at h; exact absurd rfl h
      | some c =>
          rw [hc] at h
          rintro a' (_ | ⟨_, ha'⟩)
          · exact ⟨b, by rw [hc]; nofun⟩
          · exact ends_of_foldlM h a' ha'

/-- What every step establishes, and later steps keep, holds of all points at the end. -/
theorem foldlM_covers {β : Type} {f : β → α → Option β} {R : β → β → Prop} {P : α → β → Prop}
    (hrefl : ∀ b, R b b) (htrans : ∀ {b c d}, R b c → R c d → R b d)
    (hkeep : ∀ {a b c}, R b c → P a b → P a c) : ∀ {as : List α} {b c : β},
    (∀ a ∈ as, ∀ b c, f b a = some c → R b c ∧ P a c) → as.foldlM f b = some c →
    R b c ∧ ∀ a ∈ as, P a c
  | [], b, c, _, h => by
      cases h
      exact ⟨hrefl b, nofun⟩
  | a :: as, b, c, hstep, h => by
      rw [List.foldlM_cons] at h
      obtain ⟨b', hb, h⟩ := Option.bind_eq_some_iff.mp h
      obtain ⟨hR, hP⟩ := hstep a (List.mem_cons_self ..) b b' hb
      obtain ⟨hR', hrest⟩ :=
        foldlM_covers (P := P) hrefl htrans hkeep (fun a' ha' => hstep a' (List.mem_cons_of_mem a ha')) h
      refine ⟨htrans hR hR', fun a' ha' => ?_⟩
      rcases List.mem_cons.mp ha' with rfl | ha'
      · exact hkeep hR' hP
      · exact hrest a' ha'

/-- Every step leaves fewer points that can be reached. -/
theorem acc_of_acyclic {r : α → α → Prop} {S : Finset α} (hS : ∀ a b, r a b → b ∈ S)
    (h : ∀ b, Relation.ReflTransGen r a b → ¬ Relation.TransGen r b b) :
    Acc (fun b a => r a b) a := by
  classical
  generalize hn : (S.filter fun b => Relation.TransGen r a b).card = n
  induction n using Nat.strong_induction_on generalizing a with
  | _ n ih =>
      refine .intro a fun b hab => ?_
      have hb : ∀ c, Relation.ReflTransGen r b c → ¬ Relation.TransGen r c c :=
        fun c hc => h c (.head hab hc)
      refine ih _ ?_ hb rfl
      rw [← hn]
      refine Finset.card_lt_card ((Finset.ssubset_iff_of_subset fun c hc => ?_).mpr ⟨b, ?_, ?_⟩)
      · rw [Finset.mem_filter] at hc ⊢
        exact ⟨hc.1, .head hab hc.2⟩
      · exact Finset.mem_filter.mpr ⟨hS a b hab, .single hab⟩
      · exact fun hmem => hb b .refl (Finset.mem_filter.mp hmem).2

end Sage.Library.Descent
