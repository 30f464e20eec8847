import Mathlib.Data.List.Basic

/-!
# Library — texts with numbers and marks in them

A decimal number has no other characters than digits and determines what it is the text of, so a
name that is put together from numbers and marks can be taken apart again.

* `split_unique`, `split_unique_last` — at the first mark, and at the last.
* `pieces_injective` — at every mark.
* `flatMap_injective` — where every piece shows its own end.
-/

namespace Numbered

theorem repr_injective {m n : Nat} (h : m.repr = n.repr) : m = n := by
  have hdigits : Nat.toDigits 10 m = Nat.toDigits 10 n := by
    rw [← Nat.toList_repr, ← Nat.toList_repr, h]
  have hvalue := congrArg (fun l => Nat.ofDigitChars 10 l 0) hdigits
  simpa only [Nat.ofDigitChars_ten_toDigits] using hvalue

theorem notMem_repr {c : Char} (hc : c.isDigit = false) (n : Nat) : c ∉ n.repr.toList := by
  rw [Nat.toList_repr]
  intro h
  have hdigit := Nat.isDigit_of_mem_toDigits (by decide) (by decide) h
  rw [hc] at hdigit
  cases hdigit

/-- What stands before the first mark and what stands after it. -/
theorem split_unique {α : Type} {c : α} : ∀ {a b r s : List α}, c ∉ a → c ∉ b →
    a ++ c :: r = b ++ c :: s → a = b ∧ r = s
  | [], [], _, _, _, _, h => ⟨rfl, (List.cons.inj h).2⟩
  | [], x :: b, _, _, _, hb, h => absurd (List.mem_cons.mpr (.inl (List.cons.inj h).1)) hb
  | x :: a, [], _, _, ha, _, h => absurd (List.mem_cons.mpr (.inl (List.cons.inj h).1.symm)) ha
  | x :: a, y :: b, _, _, ha, hb, h => by
      obtain ⟨hxy, h⟩ := List.cons.inj h
      obtain ⟨hab, hrs⟩ := split_unique (fun hm => ha (List.mem_cons_of_mem _ hm))
        (fun hm => hb (List.mem_cons_of_mem _ hm)) h
      exact ⟨by rw [hxy, hab], hrs⟩

/-- What stands before the last mark and what stands after it. -/
theorem split_unique_last {α : Type} {c : α} {a b r s : List α} (hr : c ∉ r) (hs : c ∉ s)
    (h : a ++ c :: r = b ++ c :: s) : a = b ∧ r = s := by
  have hreverse := congrArg List.reverse h
  simp only [List.reverse_append, List.reverse_cons, List.append_assoc, List.singleton_append]
    at hreverse
  obtain ⟨hrs, hab⟩ := split_unique (by simpa using hr) (by simpa using hs) hreverse
  exact ⟨List.reverse_injective hab, List.reverse_injective hrs⟩

/-- A mark before every piece is a mark before the pieces with marks between them. -/
theorem flatMap_cons_eq_intercalate {α : Type} (c : α) : ∀ {pieces : List (List α)}, pieces ≠ [] →
    pieces.flatMap (c :: ·) = c :: [c].intercalate pieces
  | [], h => absurd rfl h
  | [x], _ => by simp
  | x :: y :: pieces, _ => by
      rw [List.flatMap_cons, flatMap_cons_eq_intercalate c (List.cons_ne_nil y pieces),
        List.intercalate_cons_cons]
      simp

theorem pieces_injective {α : Type} [BEq α] [LawfulBEq α] {c : α} {xs ys : List (List α)}
    (hxs : ∀ x ∈ xs, c ∉ x) (hys : ∀ y ∈ ys, c ∉ y)
    (h : xs.flatMap (c :: ·) = ys.flatMap (c :: ·)) : xs = ys := by
  by_cases hx : xs = []
  · subst hx
    cases ys with
    | nil => rfl
    | cons y ys => exact absurd h.symm (by simp)
  · by_cases hy : ys = []
    · subst hy
      rw [flatMap_cons_eq_intercalate c hx] at h
      exact absurd h (by simp)
    · rw [flatMap_cons_eq_intercalate c hx, flatMap_cons_eq_intercalate c hy] at h
      rw [← List.splitOn_intercalate c hxs hx, (List.cons.inj h).2,
        List.splitOn_intercalate c hys hy]

/-- A text put together from pieces that can be read off its start tells the pieces. -/
theorem flatMap_injective {α β : Type} {f : α → List β} (hne : ∀ a, f a ≠ [])
    (hread : ∀ a b r s, f a ++ r = f b ++ s → a = b ∧ r = s) :
    ∀ {xs ys : List α}, xs.flatMap f = ys.flatMap f → xs = ys
  | [], [], _ => rfl
  | [], y :: ys, h => absurd (List.append_eq_nil_iff.mp h.symm).1 (hne y)
  | x :: xs, [], h => absurd (List.append_eq_nil_iff.mp h).1 (hne x)
  | x :: xs, y :: ys, h => by
      obtain ⟨hxy, hrest⟩ := hread x y _ _ h
      rw [hxy, flatMap_injective hne hread hrest]

end Numbered
