import Mathlib.Data.Finset.Card
import Mathlib.Logic.Relation

/-!
# Library — values that demand each other

The value of a key is made of the values of the keys it depends on.  An evaluation keeps the keys
in flight, and a demand of one of these is a cycle, from which it does not recover.

* `Asks` — which values a computation asks for, and its rules.
* `eval` — the evaluation of a key, with fuel.
* `eval_ends` — finitely many keys need finite fuel.
* `eval_done_iff` — an evaluation gives a value exactly if no key it can reach depends on itself.
* `eval_value` — the value is made of values that evaluations of their own give.
-/

namespace Sage.Library.Demand

variable {κ α β γ : Type}

inductive Query (α : Type) where
  | unfinished
  | cycle
  | done (a : α)

namespace Query

instance : Monad Query where
  pure := done
  bind x f :=
    match x with
    | unfinished => unfinished
    | cycle => cycle
    | done a => f a

instance : LawfulMonad Query :=
  .mk' _ (fun x => by cases x <;> rfl) (fun _ _ => rfl) fun x _ _ => by cases x <;> rfl

@[simp] theorem pure_eq (a : α) : (pure a : Query α) = done a := rfl

@[simp] theorem done_bind (a : α) (f : α → Query β) : (done a >>= f) = f a := rfl

theorem bind_eq_done {x : Query α} {f : α → Query β} {b : β} :
    (x >>= f) = done b ↔ ∃ a, x = done a ∧ f a = done b := by
  cases x with
  | unfinished => exact ⟨nofun, nofun⟩
  | cycle => exact ⟨nofun, nofun⟩
  | done a => simp

theorem bind_ne_unfinished {x : Query α} {f : α → Query β} (h : x ≠ unfinished)
    (hf : ∀ a, f a ≠ unfinished) : (x >>= f) ≠ unfinished := by
  cases x with
  | unfinished => exact absurd rfl h
  | cycle => nofun
  | done a => exact hf a

end Query

open Query

/-! ### What a computation asks for -/

/-- The computation asks for the values of these keys, whatever they are. -/
structure Asks (deps : List κ) (query : (κ → Query β) → Query α) : Prop where
  ends : ∀ d, (∀ j ∈ deps, d j ≠ unfinished) → query d ≠ unfinished
  answers : ∀ d, (∀ j ∈ deps, ∃ b, d j = done b) → ∃ a, query d = done a
  asked : ∀ d a, query d = done a → ∀ j ∈ deps, ∃ b, d j = done b
  mono : ∀ d d' a, (∀ j b, d j = done b → d' j = done b) → query d = done a → query d' = done a

namespace Asks

variable {deps deps' : List κ}

protected theorem pure (a : α) : Asks [] (fun _ : κ → Query β => pure a) where
  ends _ _ := nofun
  answers _ _ := ⟨a, rfl⟩
  asked _ _ _ := nofun
  mono _ _ _ _ h := h

theorem ask (j : κ) : Asks [j] (fun d : κ → Query β => d j) where
  ends _ h := h j (List.mem_singleton_self j)
  answers _ h := h j (List.mem_singleton_self j)
  asked d b h i hi := by
    rw [List.mem_singleton] at hi
    exact ⟨b, hi ▸ h⟩
  mono _ _ b h heq := h j b heq

protected theorem bind {query : (κ → Query β) → Query α} {next : α → (κ → Query β) → Query γ}
    (h : Asks deps query) (hnext : ∀ a, Asks deps' (next a)) :
    Asks (deps ++ deps') (fun d => query d >>= fun a => next a d) where
  ends d hd := bind_ne_unfinished (h.ends d fun j hj => hd j (List.mem_append_left _ hj))
    fun a => (hnext a).ends d fun j hj => hd j (List.mem_append_right _ hj)
  answers d hd := by
    obtain ⟨a, ha⟩ := h.answers d fun j hj => hd j (List.mem_append_left _ hj)
    obtain ⟨c, hc⟩ := (hnext a).answers d fun j hj => hd j (List.mem_append_right _ hj)
    exact ⟨c, bind_eq_done.mpr ⟨a, ha, hc⟩⟩
  asked d c hc := by
    obtain ⟨a, ha, hc⟩ := bind_eq_done.mp hc
    intro j hj
    obtain hj | hj := List.mem_append.mp hj
    · exact h.asked d a ha j hj
    · exact (hnext a).asked d c hc j hj
  mono d d' c hd hc := by
    obtain ⟨a, ha, hc⟩ := bind_eq_done.mp hc
    exact bind_eq_done.mpr ⟨a, h.mono d d' a hd ha, (hnext a).mono d d' c hd hc⟩

theorem map {query : (κ → Query β) → Query α} (h : Asks deps query) (f : α → γ) :
    Asks deps (fun d => query d >>= fun a => pure (f a)) := by
  have := h.bind fun a => Asks.pure (f a)
  rwa [List.append_nil] at this

end Asks

/-! ### Evaluation -/

section Eval

variable [DecidableEq κ] (body : κ → (κ → Query β) → Query β)

def eval : Nat → List κ → κ → Query β
  | 0, _, _ => unfinished
  | fuel + 1, active, k => if k ∈ active then cycle else body k (eval fuel (k :: active))

/-- A key depends on another. -/
def Dep (deps : κ → List κ) (k j : κ) : Prop := j ∈ deps k

variable {body} {deps : κ → List κ} {fuel : Nat} {active : List κ} {k : κ} {b : β}

theorem eval_succ (hk : k ∉ active) :
    eval body (fuel + 1) active k = body k (eval body fuel (k :: active)) := if_neg hk

theorem eval_succ_eq_done : eval body (fuel + 1) active k = done b ↔
    k ∉ active ∧ body k (eval body fuel (k :: active)) = done b := by
  rw [eval]
  split_ifs with hk <;> simp [hk]

theorem fewer {S : Finset κ} (hk : k ∈ S) (hmem : k ∉ active)
    (hcard : (S.filter (· ∉ active)).card < fuel + 1) :
    (S.filter (· ∉ k :: active)).card < fuel := by
  refine Nat.lt_of_lt_of_le (Finset.card_lt_card ?_) (Nat.le_of_lt_succ hcard)
  rw [Finset.ssubset_iff_of_subset]
  · exact ⟨k, by simp [hk, hmem], by simp⟩
  · intro j hj
    simp only [Finset.mem_filter, List.mem_cons, not_or] at hj ⊢
    exact ⟨hj.1, hj.2.2⟩

variable (hbody : ∀ k, Asks (deps k) (body k))

include hbody

/-- The keys not in flight bound the depth of an evaluation. -/
theorem eval_ends {S : Finset κ} (hS : ∀ k ∈ S, ∀ j ∈ deps k, j ∈ S) : ∀ (fuel : Nat)
    (active : List κ) (k : κ), k ∈ S → (S.filter (· ∉ active)).card < fuel →
      eval body fuel active k ≠ unfinished
  | 0, _, _, _, hcard => absurd hcard (Nat.not_lt_zero _)
  | fuel + 1, active, k, hk, hcard => by
      by_cases hmem : k ∈ active
      · rw [eval, if_pos hmem]
        nofun
      · rw [eval_succ hmem]
        exact (hbody k).ends _ fun j hj =>
          eval_ends hS fuel (k :: active) j (hS k hk j hj) (fewer hk hmem hcard)

/-- A value needs no key in flight, so fewer keys in flight and more fuel do not change it. -/
theorem eval_mono : ∀ {fuel fuel' : Nat} {active active' : List κ} {k : κ} {b : β},
    eval body fuel active k = done b → fuel ≤ fuel' → active' ⊆ active →
      eval body fuel' active' k = done b
  | 0, _, _, _, _, _, h, _, _ => by cases h
  | fuel + 1, 0, _, _, _, _, _, hfuel, _ => absurd hfuel (Nat.not_succ_le_zero _)
  | fuel + 1, fuel' + 1, active, active', k, b, h, hfuel, hactive => by
      rw [eval_succ_eq_done] at h ⊢
      exact ⟨fun hmem => h.1 (hactive hmem), (hbody k).mono _ _ b (fun j c hc =>
        eval_mono hc (Nat.le_of_succ_le_succ hfuel) (List.cons_subset_cons k hactive)) h.2⟩

/-- What has a value is not in flight and does not depend on itself. -/
theorem acyclic_of_done : ∀ {fuel : Nat} {active : List κ} {k : κ} {b : β},
    eval body fuel active k = done b → ∀ j, Relation.ReflTransGen (Dep deps) k j →
      j ∉ active ∧ ¬ Relation.TransGen (Dep deps) j j
  | 0, _, _, _, h, _, _ => by cases h
  | fuel + 1, active, k, b, h, j, hreach => by
      obtain ⟨hmem, h⟩ := eval_succ_eq_done.mp h
      have hdep : ∀ d ∈ deps k, ∀ j, Relation.ReflTransGen (Dep deps) d j →
          j ∉ k :: active ∧ ¬ Relation.TransGen (Dep deps) j j := by
        intro d hd j hj
        obtain ⟨c, hc⟩ := (hbody k).asked _ b h d hd
        exact acyclic_of_done hc j hj
      obtain rfl | ⟨d, hd, hdj⟩ := Relation.ReflTransGen.cases_head hreach
      · refine ⟨hmem, fun hcycle => ?_⟩
        obtain ⟨d, hd, hdk⟩ := Relation.TransGen.head'_iff.mp hcycle
        exact (hdep d hd k hdk).1 (List.mem_cons_self ..)
      · obtain ⟨hnot, hacyclic⟩ := hdep d hd j hdj
        exact ⟨fun hj => hnot (List.mem_cons_of_mem _ hj), hacyclic⟩

/-- Keys in flight lead to the key that is evaluated, so it is none of them. -/
theorem exists_done {S : Finset κ} (hS : ∀ k ∈ S, ∀ j ∈ deps k, j ∈ S) : ∀ (fuel : Nat)
    (active : List κ) (k : κ), k ∈ S → (S.filter (· ∉ active)).card < fuel →
      (∀ j, Relation.ReflTransGen (Dep deps) k j → ¬ Relation.TransGen (Dep deps) j j) →
      (∀ a ∈ active, Relation.TransGen (Dep deps) a k) →
      ∃ b, eval body fuel active k = done b
  | 0, _, _, _, hcard, _, _ => absurd hcard (Nat.not_lt_zero _)
  | fuel + 1, active, k, hk, hcard, hacyclic, hactive => by
      have hmem : k ∉ active := fun hmem => hacyclic k .refl (hactive k hmem)
      rw [eval_succ hmem]
      refine (hbody k).answers _ fun j hj => ?_
      refine exists_done hS fuel (k :: active) j (hS k hk j hj) (fewer hk hmem hcard)
        (fun i hi => hacyclic i (.head hj hi)) ?_
      rintro a (_ | ⟨_, ha⟩)
      · exact .single hj
      · exact (hactive a ha).tail hj

/-- An evaluation gives a value exactly if it reaches no key that depends on itself. -/
theorem eval_done_iff {S : Finset κ} (hS : ∀ k ∈ S, ∀ j ∈ deps k, j ∈ S) (hk : k ∈ S)
    (hfuel : S.card < fuel) : (∃ b, eval body fuel [] k = done b) ↔
      ∀ j, Relation.ReflTransGen (Dep deps) k j → ¬ Relation.TransGen (Dep deps) j j := by
  constructor
  · rintro ⟨b, hb⟩ j hj
    exact (acyclic_of_done hbody hb j hj).2
  · intro hacyclic
    refine exists_done hbody hS fuel [] k hk ?_ hacyclic (by nofun)
    exact (Finset.card_filter_le _ _).trans_lt hfuel

/-- A value is made of the values that evaluations of their own give. -/
theorem eval_value (h : eval body fuel [] k = done b) : body k (eval body fuel []) = done b := by
  cases fuel with
  | zero => cases h
  | succ fuel =>
      obtain ⟨-, h⟩ := eval_succ_eq_done.mp h
      exact (hbody k).mono _ _ b (fun j c hc =>
        eval_mono hbody hc (Nat.le_succ fuel) (List.nil_subset _)) h

end Eval

end Sage.Library.Demand
