import Sage.Library.Brackets

/-!
# Library — lexical scopes

A word of the events of a text, in their order: a scope is opened or closed, a name is bound,
something else happens.  What a name means after a word is read off the word alone.

* `Visible` — no scope around a position is closed before the word ends.
* `Denotes` — the latest visible binding of a name.
* `denotes_snoc_opens`, `denotes_snoc_binds`, `denotes_scope` — what each event does to it; a scope
  that is closed again does nothing.
-/

namespace Lexical

inductive Event (ν β υ : Type) where
  | opens
  | closes
  | binds (x : ν) (site : β)
  | other (u : υ)
deriving DecidableEq

variable {ν β υ : Type}

def Event.symbol : Event ν β υ → Brackets.Symbol Unit Unit
  | .opens => .opens ()
  | .closes => .closes ()
  | .binds _ _ => .other
  | .other _ => .other

/-- Every scope of a word is closed in it. -/
def Closed (word : List (Event ν β υ)) : Prop :=
  Brackets.Balanced (fun _ _ => True) (word.map Event.symbol)

/-- The scopes around a position are still open when the word ends. -/
def Visible (word : List (Event ν β υ)) (j : Nat) : Prop :=
  ∀ a b, Brackets.Matches (word.map Event.symbol) a b → ¬(a < j ∧ j < b)

def BindsAt (word : List (Event ν β υ)) (x : ν) (j : Nat) : Prop :=
  ∃ site, word[j]? = some (.binds x site)

/-- After the word, the name means what is bound at the position. -/
structure Denotes (word : List (Event ν β υ)) (x : ν) (j : Nat) : Prop where
  binds : BindsAt word x j
  visible : Visible word j
  latest : ∀ k, j < k → BindsAt word x k → ¬Visible word k

/-- A scope around a word. -/
@[grind =]
def scope (inner : List (Event ν β υ)) : List (Event ν β υ) := .opens :: (inner ++ [.closes])

variable {word word' inner : List (Event ν β υ)} {x y : ν} {site : β} {u : υ} {j k : Nat}

theorem BindsAt.lt (h : BindsAt word x j) : j < word.length := by
  obtain ⟨site, h⟩ := h
  exact (List.getElem?_eq_some_iff.mp h).1

theorem Denotes.lt (h : Denotes word x j) : j < word.length := h.binds.lt

theorem Denotes.unique (h : Denotes word x j) (h' : Denotes word x k) : j = k := by
  obtain hlt | heq | hgt := Nat.lt_trichotomy j k
  · exact absurd h'.visible (h.latest k hlt h'.binds)
  · exact heq
  · exact absurd h.visible (h'.latest j hgt h.binds)

theorem not_denotes_nil : ¬Denotes ([] : List (Event ν β υ)) x j :=
  fun h => Nat.not_lt_zero _ h.lt

theorem bindsAt_append_left (hj : j < word.length) :
    BindsAt (word ++ word') x j ↔ BindsAt word x j := by
  rw [BindsAt, BindsAt, List.getElem?_append_left hj]

/-! ### Closed words -/

theorem closed_nil : Closed ([] : List (Event ν β υ)) := .nil

theorem Closed.append (h : Closed word) (h' : Closed word') : Closed (word ++ word') := by
  rw [Closed, List.map_append]
  exact Brackets.Balanced.append h h'

theorem closed_binds : Closed [(.binds x site : Event ν β υ)] := .other .nil

theorem closed_other : Closed [(.other u : Event ν β υ)] := .other .nil

theorem Closed.scope (h : Closed inner) : Closed (scope inner) := by
  rw [Closed, Lexical.scope, List.map_cons, List.map_append]
  exact .pair trivial h .nil

/-! ### What an event does -/

/-- Only a scope that is closed hides what it contains. -/
theorem visible_snoc {event : Event ν β υ} (h : event ≠ .closes) :
    Visible (word ++ [event]) j ↔ Visible word j := by
  rw [Visible, Visible, List.map_append]
  refine forall₂_congr fun a b => imp_congr_left ?_
  cases event with
  | opens => exact Brackets.matches_snoc_opens
  | closes => exact absurd rfl h
  | binds y site => exact Brackets.matches_snoc_other
  | other u => exact Brackets.matches_snoc_other

/-- A position at the end of a word is in no scope that was closed. -/
theorem visible_length : Visible word word.length := by
  intro a b h hlt
  have hb := h.lt.2
  rw [List.length_map] at hb
  exact absurd hlt.2 hb.not_gt

theorem bindsAt_snoc {event : Event ν β υ} :
    BindsAt (word ++ [event]) x j ↔
      BindsAt word x j ∨ j = word.length ∧ ∃ site, event = .binds x site := by
  constructor
  · rintro ⟨site, h⟩
    obtain hlt | heq | hgt := Nat.lt_trichotomy j word.length
    · exact .inl ⟨site, (List.getElem?_append_left hlt).symm.trans h⟩
    · subst heq
      rw [List.getElem?_concat_length, Option.some.injEq] at h
      exact .inr ⟨rfl, site, h⟩
    · have hlength : (word ++ [event]).length ≤ j := by
        rw [List.length_append, List.length_singleton]
        exact hgt
      rw [List.getElem?_eq_none_iff.mpr hlength] at h
      cases h
  · rintro (h | ⟨rfl, site, rfl⟩)
    · exact (bindsAt_append_left h.lt).mpr h
    · exact ⟨site, List.getElem?_concat_length⟩

theorem denotes_snoc {event : Event ν β υ} (hcloses : event ≠ .closes)
    (hbinds : ∀ site, event ≠ .binds x site) :
    Denotes (word ++ [event]) x j ↔ Denotes word x j := by
  have hat (k : Nat) : BindsAt (word ++ [event]) x k ↔ BindsAt word x k := by
    rw [bindsAt_snoc, or_iff_left]
    rintro ⟨-, site, hsite⟩
    exact hbinds site hsite
  constructor
  · rintro ⟨h, hvisible, hlatest⟩
    exact ⟨(hat j).mp h, (visible_snoc hcloses).mp hvisible, fun k hk hbind hvis =>
      hlatest k hk ((hat k).mpr hbind) ((visible_snoc hcloses).mpr hvis)⟩
  · rintro ⟨h, hvisible, hlatest⟩
    exact ⟨(hat j).mpr h, (visible_snoc hcloses).mpr hvisible, fun k hk hbind hvis =>
      hlatest k hk ((hat k).mp hbind) ((visible_snoc hcloses).mp hvis)⟩

theorem denotes_snoc_binds :
    Denotes (word ++ [.binds x site]) x j ↔ j = word.length := by
  have hnew : Denotes (word ++ [.binds x site]) x word.length := by
    refine ⟨⟨site, List.getElem?_concat_length⟩, (visible_snoc (by nofun)).mpr visible_length, ?_⟩
    intro k hk hbind
    have hlt := hbind.lt
    rw [List.length_append, List.length_singleton] at hlt
    exact absurd hk (Nat.lt_succ_iff.mp hlt).not_gt
  constructor
  · exact fun h => h.unique hnew
  · rintro rfl
    exact hnew

/-- What a scope binds is hidden once it is closed. -/
theorem visible_scope (h : Closed inner) :
    Visible (word ++ scope inner) j ↔
      Visible word j ∧ ¬(word.length < j ∧ j < word.length + inner.length + 1) := by
  have hmap : (word ++ scope inner).map Event.symbol =
      word.map Event.symbol ++ .opens () :: (inner.map Event.symbol ++ .closes () :: []) := by
    rw [List.map_append, scope, List.map_cons, List.map_append]
    rfl
  have hpair : Brackets.Matches ((word ++ scope inner).map Event.symbol)
      word.length (word.length + inner.length + 1) :=
    ⟨_, (), _, (), [], hmap, List.length_map _, by rw [List.length_map], h⟩
  constructor
  · intro hvisible
    refine ⟨fun a b hab => hvisible a b ?_, hvisible _ _ hpair⟩
    rw [List.map_append]
    exact hab.append _
  · rintro ⟨hvisible, hout⟩ a b hab hlt
    by_cases hb : b < word.length
    · rw [List.map_append] at hab
      exact hvisible a b (hab.restrict (by rwa [List.length_map])) hlt
    · -- the two scopes are nested, and the new one is closed last
      have hend := hab.lt.2
      simp only [List.length_map, List.length_append, scope, List.length_cons,
        List.length_nil] at hend
      obtain halt | hage := Nat.lt_or_ge a word.length
      · obtain hlt' | hlt' := hab.nested hpair halt
        · exact hb hlt'
        · omega
      · exact hout ⟨by omega, by omega⟩

theorem denotes_scope (h : Closed inner) :
    Denotes (word ++ scope inner) x j ↔ Denotes word x j := by
  have hold {k : Nat} (hk : BindsAt (word ++ scope inner) x k)
      (hvisible : Visible (word ++ scope inner) k) :
      BindsAt word x k ∧ Visible word k := by
    obtain ⟨hvis, hout⟩ := (visible_scope h).mp hvisible
    have hlt : k < word.length := by
      by_contra hnot
      obtain ⟨site, hk⟩ := hk
      rw [List.getElem?_append_right (Nat.le_of_not_lt hnot), scope] at hk
      -- neither end of the scope binds
      obtain heq | hpos := Nat.eq_zero_or_pos (k - word.length)
      · rw [heq] at hk
        cases hk
      · obtain ⟨n, hn⟩ := Nat.exists_eq_succ_of_ne_zero hpos.ne'
        have hge : inner.length ≤ n := by omega
        rw [hn, List.getElem?_cons_succ, List.getElem?_append_right hge,
          List.getElem?_singleton] at hk
        split_ifs at hk
        cases hk
    exact ⟨(bindsAt_append_left hlt).mp hk, hvis⟩
  have hnew {k : Nat} (hk : BindsAt word x k) (hvisible : Visible word k) :
      BindsAt (word ++ scope inner) x k ∧
        Visible (word ++ scope inner) k :=
    ⟨(bindsAt_append_left hk.lt).mpr hk,
      (visible_scope h).mpr ⟨hvisible, fun hlt => absurd hlt.1 hk.lt.not_gt⟩⟩
  constructor
  · rintro ⟨hbind, hvisible, hlatest⟩
    obtain ⟨hbind', hvisible'⟩ := hold hbind hvisible
    refine ⟨hbind', hvisible', fun k hk hat hvis => ?_⟩
    obtain ⟨hat', hvis'⟩ := hnew hat hvis
    exact hlatest k hk hat' hvis'
  · rintro ⟨hbind, hvisible, hlatest⟩
    obtain ⟨hbind', hvisible'⟩ := hnew hbind hvisible
    refine ⟨hbind', hvisible', fun k hk hat hvis => ?_⟩
    obtain ⟨hat', hvis'⟩ := hold hat hvis
    exact hlatest k hk hat' hvis'

end Lexical
