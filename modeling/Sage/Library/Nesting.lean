import Mathlib.Data.List.Basic

/-!
# Library — nested declarations

A text whose tokens stand in named declarations, which may have declarations in them.  A declaration
extends over consecutive tokens.

* `Part` — a token or a declaration.
* `owned` — the tokens, each with the names of the declarations around it.
* `extents`, `innermost` — the owner of a token is the innermost declaration over it.
-/

namespace Nesting

inductive Part (ν τ : Type*) where
  | token (token : τ)
  | declaration (name : ν) (parts : List (Part ν τ))

variable {ν τ : Type*}

mutual

@[grind =] def Part.tokens : Part ν τ → List τ
  | .token t => [t]
  | .declaration _ parts => tokens parts

@[grind =] def tokens : List (Part ν τ) → List τ
  | [] => []
  | part :: parts => part.tokens ++ tokens parts

end

mutual

@[grind =] def Part.owned (path : List ν) : Part ν τ → List (τ × List ν)
  | .token t => [(t, path)]
  | .declaration name parts => owned (path ++ [name]) parts

@[grind =] def owned (path : List ν) : List (Part ν τ) → List (τ × List ν)
  | [] => []
  | part :: parts => part.owned path ++ owned path parts

end

/-- The tokens from one index up to another, and the declaration that extends over them. -/
structure Extent (ν : Type*) where
  start : Nat
  stop : Nat
  owner : List ν

mutual

/-- The declarations in a part whose first token has a given index. -/
def Part.extents (start : Nat) (path : List ν) : Part ν τ → List (Extent ν)
  | .token _ => []
  | .declaration name parts =>
      ⟨start, start + (tokens parts).length, path ++ [name]⟩ :: extents start (path ++ [name]) parts

def extents (start : Nat) (path : List ν) : List (Part ν τ) → List (Extent ν)
  | [] => []
  | part :: parts =>
      part.extents start path ++ extents (start + part.tokens.length) path parts

end

@[simp] theorem tokens_nil : tokens ([] : List (Part ν τ)) = [] := rfl

@[simp] theorem owned_nil (path : List ν) : owned path ([] : List (Part ν τ)) = [] := rfl

theorem tokens_append (parts parts' : List (Part ν τ)) :
    tokens (parts ++ parts') = tokens parts ++ tokens parts' := by
  induction parts with
  | nil => rfl
  | cons part parts ih => rw [List.cons_append, tokens, tokens, ih, List.append_assoc]

theorem owned_append (path : List ν) (parts parts' : List (Part ν τ)) :
    owned path (parts ++ parts') = owned path parts ++ owned path parts' := by
  induction parts with
  | nil => rfl
  | cons part parts ih => rw [List.cons_append, owned, owned, ih, List.append_assoc]

theorem tokens_map_token (ts : List τ) : tokens (ts.map (@Part.token ν τ)) = ts := by
  induction ts with
  | nil => rfl
  | cons t ts ih => rw [List.map_cons, tokens, Part.tokens, ih, List.singleton_append]

theorem owned_map_token (path : List ν) (ts : List τ) :
    owned path (ts.map (@Part.token ν τ)) = ts.map fun t => (t, path) := by
  induction ts with
  | nil => rfl
  | cons t ts ih => rw [List.map_cons, owned, Part.owned, ih, List.map_cons, List.singleton_append]

mutual

theorem Part.owned_tokens (path : List ν) : ∀ part : Part ν τ,
    (part.owned path).map Prod.fst = part.tokens
  | .token _ => rfl
  | .declaration name parts => by rw [Part.owned, Part.tokens, owned_tokens]

/-- Every token has an owner. -/
theorem owned_tokens (path : List ν) : ∀ parts : List (Part ν τ),
    (owned path parts).map Prod.fst = tokens parts
  | [] => rfl
  | part :: parts => by rw [owned, tokens, List.map_append, part.owned_tokens, owned_tokens]

end

/-- An extent over a token that is in every other extent over it. -/
def Innermost (extents : List (Extent ν)) (index : Nat) (owner : List ν) : Prop :=
  ∃ e ∈ extents, e.owner = owner ∧ e.start ≤ index ∧ index < e.stop ∧
    ∀ e' ∈ extents, e'.start ≤ index → index < e'.stop →
      e'.start ≤ e.start ∧ e.stop ≤ e'.stop ∧ e'.owner <+: owner

/-- Extents that are not over the token do not count. -/
theorem Innermost.mono {es es' : List (Extent ν)} {i : Nat} {owner : List ν}
    (h : Innermost es i owner) (hsub : ∀ e ∈ es, e ∈ es')
    (hother : ∀ e ∈ es', e ∈ es ∨ ¬(e.start ≤ i ∧ i < e.stop)) : Innermost es' i owner := by
  obtain ⟨e, he, howner, hstart, hstop, hleast⟩ := h
  refine ⟨e, hsub e he, howner, hstart, hstop, ?_⟩
  intro e' he' hstart' hstop'
  rcases hother e' he' with he' | hnot
  · exact hleast e' he' hstart' hstop'
  · exact absurd ⟨hstart', hstop'⟩ hnot

mutual

theorem Part.extents_within (path : List ν) : ∀ (part : Part ν τ) (start : Nat),
    ∀ e ∈ part.extents start path, start ≤ e.start ∧ e.stop ≤ start + part.tokens.length
  | .token _, _ => fun _ he => absurd he List.not_mem_nil
  | .declaration name parts, start => by
      intro e he
      rcases List.mem_cons.mp he with rfl | he
      · exact ⟨Nat.le_refl _, Nat.le_refl _⟩
      · exact extents_within _ parts start e he

/-- Declarations extend over tokens of their part. -/
theorem extents_within (path : List ν) : ∀ (parts : List (Part ν τ)) (start : Nat),
    ∀ e ∈ extents start path parts, start ≤ e.start ∧ e.stop ≤ start + (tokens parts).length
  | [], _ => fun _ he => absurd he List.not_mem_nil
  | part :: parts, start => by
      intro e he
      rw [tokens, List.length_append]
      rcases List.mem_append.mp he with he | he
      · have hpart := part.extents_within path start e he
        omega
      · have hparts := extents_within path parts (start + part.tokens.length) e he
        omega

end

mutual

theorem Part.owned_cases (path : List ν) : ∀ (part : Part ν τ) (start i : Nat) (t : τ)
    (owner : List ν), (part.owned path)[i]? = some (t, owner) →
      path <+: owner ∧ (owner = path ∧ (∀ e ∈ part.extents start path,
        ¬(e.start ≤ start + i ∧ start + i < e.stop)) ∨
          Innermost (part.extents start path) (start + i) owner)
  | .token t', start, i, t, owner, h => by
      cases i with
      | zero =>
          obtain ⟨-, rfl⟩ := Prod.mk.inj (Option.some.inj h)
          exact ⟨List.prefix_rfl, .inl ⟨rfl, fun e he => absurd he List.not_mem_nil⟩⟩
      | succ i => cases h
  | .declaration name parts, start, i, t, owner, h => by
      obtain ⟨howns, hcases⟩ := owned_cases (path ++ [name]) parts start i t owner h
      have hi : i < (tokens parts).length := by
        rw [← owned_tokens (path ++ [name]), List.length_map]
        exact (List.getElem?_eq_some_iff.mp h).1
      refine ⟨(List.prefix_append _ _).trans howns, .inr ?_⟩
      rcases hcases with ⟨rfl, hnone⟩ | ⟨e, he, howner, hstart, hstop, hleast⟩
      · refine ⟨_, List.mem_cons_self, rfl, Nat.le_add_right _ _, Nat.add_lt_add_left hi _, ?_⟩
        intro e' he' hstart' hstop'
        rcases List.mem_cons.mp he' with rfl | he'
        · exact ⟨Nat.le_refl _, Nat.le_refl _, List.prefix_rfl⟩
        · exact absurd ⟨hstart', hstop'⟩ (hnone e' he')
      · refine ⟨e, List.mem_cons_of_mem _ he, howner, hstart, hstop, ?_⟩
        intro e' he' hstart' hstop'
        rcases List.mem_cons.mp he' with rfl | he'
        · have hwithin := extents_within (path ++ [name]) parts start e he
          exact ⟨hwithin.1, hwithin.2, howns⟩
        · exact hleast e' he' hstart' hstop'

/-- A token stands in no declaration of a list of parts, or it is owned by the innermost one over
it. -/
theorem owned_cases (path : List ν) : ∀ (parts : List (Part ν τ)) (start i : Nat) (t : τ)
    (owner : List ν), (owned path parts)[i]? = some (t, owner) →
      path <+: owner ∧ (owner = path ∧ (∀ e ∈ extents start path parts,
        ¬(e.start ≤ start + i ∧ start + i < e.stop)) ∨
          Innermost (extents start path parts) (start + i) owner)
  | [], _, _, _, _, h => by cases h
  | part :: parts, start, i, t, owner, h => by
      have hlength : (part.owned path).length = part.tokens.length := by
        rw [← part.owned_tokens path, List.length_map]
      have hfirst := part.extents_within path start
      have hrest := extents_within path parts (start + part.tokens.length)
      rw [owned] at h
      by_cases hi : i < part.tokens.length
      · rw [List.getElem?_append_left (by rw [hlength]; exact hi)] at h
        obtain ⟨howns, hcases⟩ := part.owned_cases path start i t owner h
        -- the other parts are behind the token
        have hbehind : ∀ e ∈ extents (start + part.tokens.length) path parts,
            ¬(e.start ≤ start + i ∧ start + i < e.stop) := by
          intro e he hover
          have := hrest e he
          omega
        refine ⟨howns, ?_⟩
        rcases hcases with ⟨hpath, hnone⟩ | hinner
        · refine .inl ⟨hpath, fun e he => ?_⟩
          exact (List.mem_append.mp he).elim (hnone e) (hbehind e)
        · refine .inr (hinner.mono (fun e he => List.mem_append_left _ he) fun e he => ?_)
          exact (List.mem_append.mp he).imp id (hbehind e)
      · rw [List.getElem?_append_right (by rw [hlength]; exact Nat.le_of_not_lt hi), hlength] at h
        obtain ⟨howns, hcases⟩ :=
          owned_cases path parts (start + part.tokens.length) (i - part.tokens.length) t owner h
        have hindex : start + part.tokens.length + (i - part.tokens.length) = start + i := by omega
        rw [hindex] at hcases
        have hbefore : ∀ e ∈ part.extents start path,
            ¬(e.start ≤ start + i ∧ start + i < e.stop) := by
          intro e he hover
          have := hfirst e he
          omega
        refine ⟨howns, ?_⟩
        rcases hcases with ⟨hpath, hnone⟩ | hinner
        · refine .inl ⟨hpath, fun e he => ?_⟩
          exact (List.mem_append.mp he).elim (hbefore e) (hnone e)
        · refine .inr (hinner.mono (fun e he => List.mem_append_right _ he) fun e he => ?_)
          exact (List.mem_append.mp he).symm.imp id (hbefore e)

end

/-- The declarations of a text, and the text itself. -/
def allExtents (parts : List (Part ν τ)) : List (Extent ν) :=
  ⟨0, (tokens parts).length, []⟩ :: extents 0 [] parts

/-- The owner of a token is the innermost declaration over it. -/
theorem innermost {parts : List (Part ν τ)} {i : Nat} {t : τ} {owner : List ν}
    (h : (owned [] parts)[i]? = some (t, owner)) : Innermost (allExtents parts) i owner := by
  have hi : i < (tokens parts).length := by
    rw [← owned_tokens [], List.length_map]
    exact (List.getElem?_eq_some_iff.mp h).1
  obtain ⟨-, hcases⟩ := owned_cases [] parts 0 i t owner h
  rw [Nat.zero_add] at hcases
  rcases hcases with ⟨rfl, hnone⟩ | ⟨e, he, howner, hstart, hstop, hleast⟩
  · refine ⟨_, List.mem_cons_self, rfl, Nat.zero_le _, hi, ?_⟩
    intro e' he' hstart' hstop'
    rcases List.mem_cons.mp he' with rfl | he'
    · exact ⟨Nat.le_refl _, Nat.le_refl _, List.prefix_rfl⟩
    · exact absurd ⟨hstart', hstop'⟩ (hnone e' he')
  · refine ⟨e, List.mem_cons_of_mem _ he, howner, hstart, hstop, ?_⟩
    intro e' he' hstart' hstop'
    rcases List.mem_cons.mp he' with rfl | he'
    · have hwithin := extents_within [] parts 0 e he
      exact ⟨hwithin.1, by simpa using hwithin.2, List.nil_prefix⟩
    · exact hleast e' he' hstart' hstop'

end Nesting
