import Mathlib.Data.List.Forall2
import Sage.Library.PartialMap

/-!
# Library — identities made on demand

A memoised query that makes one value for a key, and an identity for the value: the first demand
of a key makes it, and a later demand finds it.

* `demand`, `demandAll` — a key, and a list of keys none of which may fail.
* `Sound` — the memos are about the values of their keys, and no identity is in two of them.
* `demandAll_spec` — every key has its own identity, and a list without repetitions has no
  repetitions.
-/

namespace Minting

variable {κ α : Type} [DecidableEq κ]

structure Table (κ α : Type) where
  memo : PartialMap κ (Option Nat)
  minted : List α

def Table.empty : Table κ α := ⟨PartialMap.empty, []⟩

variable (make : κ → Option α)

def demand (k : κ) (t : Table κ α) : Option Nat × Table κ α :=
  match t.memo k with
  | some answer => (answer, t)
  | none =>
      match make k with
      | some a => (some t.minted.length, ⟨t.memo.insert k (some t.minted.length), t.minted ++ [a]⟩)
      | none => (none, { t with memo := t.memo.insert k none })

/-- Fails at a key without a value. -/
def demandAll : List κ → Table κ α → Option (List Nat × Table κ α)
  | [], t => some ([], t)
  | k :: ks, t =>
      match demand make k t with
      | (none, _) => none
      | (some id, t) =>
          match demandAll ks t with
          | some (ids, t) => some (id :: ids, t)
          | none => none

structure Sound (t : Table κ α) : Prop where
  value : ∀ {k} {id : Nat}, t.memo k = some (some id) → ∃ a, make k = some a ∧ t.minted[id]? = some a
  absent : ∀ {k}, t.memo k = some none → make k = none
  key_unique : ∀ {k k' id}, t.memo k = some (some id) → t.memo k' = some (some id) → k = k'

/-- Nothing is forgotten. -/
structure Keeps (t t' : Table κ α) : Prop where
  memo : ∀ {k answer}, t.memo k = some answer → t'.memo k = some answer
  minted : ∀ {id : Nat} {a}, t.minted[id]? = some a → t'.minted[id]? = some a

omit [DecidableEq κ] in
theorem Keeps.refl (t : Table κ α) : Keeps t t := ⟨id, id⟩

omit [DecidableEq κ] in
theorem Keeps.trans {t t' t'' : Table κ α} (h : Keeps t t') (h' : Keeps t' t'') : Keeps t t'' :=
  ⟨fun hk => h'.memo (h.memo hk), fun hid => h'.minted (h.minted hid)⟩

variable {make} {t t' : Table κ α} {k : κ} {a : α} {ids : List Nat} {ks : List κ}

omit [DecidableEq κ] in
theorem sound_empty : Sound make (Table.empty : Table κ α) where
  value h := by cases h
  absent h := by cases h
  key_unique h := by cases h

omit [DecidableEq κ] in
theorem Sound.lt (ht : Sound make t) {id : Nat} (h : t.memo k = some (some id)) :
    id < t.minted.length := by
  obtain ⟨a, -, hid⟩ := ht.value h
  exact (List.getElem?_eq_some_iff.mp hid).1

/-! ### One key -/

theorem Keeps.remember (answer : Option Nat) (hk : t.memo k = none) (new : List α) :
    Keeps t ⟨t.memo.insert k answer, t.minted ++ new⟩ where
  memo := by
    intro k' answer' h
    have hne : k' ≠ k := by
      rintro rfl
      rw [hk] at h
      cases h
    simpa [PartialMap.insert, hne] using h
  minted h := by
    rw [List.getElem?_append_left (List.getElem?_eq_some_iff.mp h).1]
    exact h

theorem Sound.mint (ht : Sound make t) (hk : t.memo k = none) (ha : make k = some a) :
    Sound make ⟨t.memo.insert k (some t.minted.length), t.minted ++ [a]⟩ where
  value := by
    intro k' id h
    rcases PartialMap.insert_eq_some h with ⟨rfl, hid⟩ | ⟨-, h⟩
    · cases hid
      exact ⟨a, ha, List.getElem?_concat_length⟩
    · obtain ⟨a', ha', hid⟩ := ht.value h
      exact ⟨a', ha', (Keeps.remember (some t.minted.length) hk [a]).minted hid⟩
  absent := by
    intro k' h
    rcases PartialMap.insert_eq_some h with ⟨-, hid⟩ | ⟨-, h⟩
    · cases hid
    · exact ht.absent h
  key_unique := by
    intro k₁ k₂ id h₁ h₂
    -- The new identity is beyond all others.
    rcases PartialMap.insert_eq_some h₁ with ⟨rfl, hid₁⟩ | ⟨-, h₁⟩
    · rcases PartialMap.insert_eq_some h₂ with ⟨rfl, -⟩ | ⟨-, h₂⟩
      · rfl
      · cases hid₁
        exact absurd (ht.lt h₂) (Nat.lt_irrefl _)
    · rcases PartialMap.insert_eq_some h₂ with ⟨-, hid₂⟩ | ⟨-, h₂⟩
      · cases hid₂
        exact absurd (ht.lt h₁) (Nat.lt_irrefl _)
      · exact ht.key_unique h₁ h₂

theorem Sound.fail (ht : Sound make t) (ha : make k = none) :
    Sound make { t with memo := t.memo.insert k none } where
  value := by
    intro k' id h
    rcases PartialMap.insert_eq_some h with ⟨-, hid⟩ | ⟨-, h⟩
    · cases hid
    · exact ht.value h
  absent := by
    intro k' h
    rcases PartialMap.insert_eq_some h with ⟨rfl, -⟩ | ⟨-, h⟩
    · exact ha
    · exact ht.absent h
  key_unique := by
    intro k₁ k₂ id h₁ h₂
    rcases PartialMap.insert_eq_some h₁ with ⟨-, hid₁⟩ | ⟨-, h₁⟩
    · cases hid₁
    · rcases PartialMap.insert_eq_some h₂ with ⟨-, hid₂⟩ | ⟨-, h₂⟩
      · cases hid₂
      · exact ht.key_unique h₁ h₂

theorem demand_sound (ht : Sound make t) (k : κ) :
    Sound make (demand make k t).2 ∧ Keeps t (demand make k t).2 := by
  unfold demand
  cases hk : t.memo k with
  | some answer => exact ⟨ht, .refl t⟩
  | none =>
      cases ha : make k with
      | some a => exact ⟨ht.mint hk ha, .remember _ hk [a]⟩
      | none =>
          have hkeeps := Keeps.remember none hk []
          rw [List.append_nil] at hkeeps
          exact ⟨ht.fail ha, hkeeps⟩

/-- The answer is in the memo from then on. -/
theorem demand_memo (k : κ) (t : Table κ α) :
    (demand make k t).2.memo k = some (demand make k t).1 := by
  unfold demand
  cases hk : t.memo k with
  | some answer => exact hk
  | none => cases ha : make k <;> simp [PartialMap.insert]

theorem demand_isSome (ht : Sound make t) (ha : make k = some a) :
    ∃ id, (demand make k t).1 = some id := by
  cases hid : (demand make k t).1 with
  | some id => exact ⟨id, rfl⟩
  | none =>
      have habsent := (demand_sound ht k).1.absent ((demand_memo k t).trans (congrArg some hid))
      rw [ha] at habsent
      cases habsent

/-! ### A list of keys -/

theorem demandAll_spec (ht : Sound make t) (hks : ∀ k ∈ ks, ∃ a, make k = some a) :
    ∃ ids t', demandAll make ks t = some (ids, t') ∧ Sound make t' ∧ Keeps t t' ∧
      List.Forall₂ (fun k id => t'.memo k = some (some id)) ks ids := by
  induction ks generalizing t with
  | nil => exact ⟨[], t, rfl, ht, .refl t, .nil⟩
  | cons k ks ih =>
      obtain ⟨a, ha⟩ := hks k List.mem_cons_self
      obtain ⟨id, hid⟩ := demand_isSome ht ha
      obtain ⟨hsound, hkeeps⟩ := demand_sound ht k
      obtain ⟨ids, t', hrun, ht', hkeeps', hmemo⟩ :=
        ih hsound fun k hk => hks k (List.mem_cons_of_mem _ hk)
      refine ⟨id :: ids, t', ?_, ht', hkeeps.trans hkeeps', .cons ?_ hmemo⟩
      · rw [demandAll]
        cases hd : demand make k t with
        | mk answer t₁ =>
            rw [hd] at hid hrun
            cases hid
            simp only [hrun]
      · exact hkeeps'.memo ((demand_memo k t).trans (congrArg some hid))

omit [DecidableEq κ] in
theorem exists_key {id : Nat} (h : List.Forall₂ (fun k id => t.memo k = some (some id)) ks ids)
    (hid : id ∈ ids) : ∃ k ∈ ks, t.memo k = some (some id) := by
  induction h with
  | nil => cases hid
  | cons hk _ ih =>
      rcases List.mem_cons.mp hid with rfl | hid
      · exact ⟨_, List.mem_cons_self, hk⟩
      · obtain ⟨k', hk', hmemo⟩ := ih hid
        exact ⟨k', List.mem_cons_of_mem _ hk', hmemo⟩

omit [DecidableEq κ] in
theorem Sound.ids_nodup (ht : Sound make t)
    (h : List.Forall₂ (fun k id => t.memo k = some (some id)) ks ids) (hks : ks.Nodup) :
    ids.Nodup := by
  induction h with
  | nil => exact List.nodup_nil
  | @cons k id ks ids hk htail ih =>
      obtain ⟨hnotMem, hks⟩ := List.nodup_cons.mp hks
      refine List.nodup_cons.mpr ⟨fun hmem => hnotMem ?_, ih hks⟩
      obtain ⟨k', hk', hid⟩ := exists_key htail hmem
      rwa [ht.key_unique hk hid]

end Minting
