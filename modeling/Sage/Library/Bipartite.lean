import Mathlib.Data.Finset.Card
import Mathlib.Data.Fintype.EquivFin
import Mathlib.Logic.Equiv.Fin.Basic
import Mathlib.Logic.Equiv.Option
import Mathlib.Logic.Function.Basic
import Mathlib.Tactic.Tauto

/-!
# Library — matchings by augmenting paths

The two sides of a graph are to be paired along its edges.  Elements of the left side are taken one
by one; each looks for a place on the right, and one that is taken is given up when its holder finds
another.

* `augment` — the search for a place, with fuel.
* `augment_spec` — it adds one element to a matching, or visits places that are all held and lead to
  visited places only.
* `matchAll_spec` — all elements find a place, or no injection follows the edges.
* `Paired` — a bijection between the entries of two lists, whatever their orders.
* `perfect_iff` — they do and every place is taken exactly if some bijection follows the edges.
-/

namespace Sage.Library.Bipartite

variable {α β : Type} [DecidableEq β]

/-- Who holds a place, and the places that a search has visited. -/
structure State (α β : Type) where
  assigned : β → Option α
  seen : Finset β

/-- A place is given to `a`. -/
def State.assign (s : State α β) (b : β) (a : α) : State α β :=
  ⟨Function.update s.assigned b (some a), s.seen⟩

@[grind =] def State.visit (s : State α β) (b : β) : State α β := ⟨s.assigned, insert b s.seen⟩

def tryEach (augment : α → State α β → Option (Bool × State α β)) (a : α) :
    List β → State α β → Option (Bool × State α β)
  | [], s => some (false, s)
  | b :: bs, s =>
      if b ∈ s.seen then tryEach augment a bs s
      else
        match s.assigned b with
        | none => some (true, (s.visit b).assign b a)
        | some previous =>
            match augment previous (s.visit b) with
            | none => none
            | some (true, s) => some (true, s.assign b a)
            | some (false, s) => tryEach augment a bs s

def augment (edges : α → List β) : Nat → α → State α β → Option (Bool × State α β)
  | 0, _, _ => none
  | fuel + 1, a, s => tryEach (augment edges fuel) a (edges a) s

/-- Every search starts afresh; the first that fails ends the run. -/
def matchAll (edges : α → List β) (fuel : Nat) :
    List α → (β → Option α) → Option (Bool × (β → Option α))
  | [], assigned => some (true, assigned)
  | a :: as, assigned =>
      match augment edges fuel a ⟨assigned, ∅⟩ with
      | none => none
      | some (false, s) => some (false, s.assigned)
      | some (true, s) => matchAll edges fuel as s.assigned

/-! ### One search -/

variable {edges : α → List β} {a : α} {s s' s₁ : State α β}

/-- The places not visited are a matching without `a`. -/
structure Ready (edges : α → List β) (s : State α β) (a : α) : Prop where
  valid : ∀ b x, s.assigned b = some x → b ∈ edges x
  inj : ∀ b b' x, b ∉ s.seen → b' ∉ s.seen → s.assigned b = some x → s.assigned b' = some x → b = b'
  away : ∀ b, b ∉ s.seen → s.assigned b ≠ some a

/-- The places that `s` had not visited are now a matching with `a`. -/
structure Augmented (edges : α → List β) (s s' : State α β) (a : α) : Prop where
  valid : ∀ b x, s'.assigned b = some x → b ∈ edges x
  kept : ∀ b ∈ s.seen, s'.assigned b = s.assigned b
  inj : ∀ b b' x, b ∉ s.seen → b' ∉ s.seen →
    s'.assigned b = some x → s'.assigned b' = some x → b = b'
  holds_iff : ∀ x, (∃ b, b ∉ s.seen ∧ s'.assigned b = some x) ↔
    x = a ∨ ∃ b, b ∉ s.seen ∧ s.assigned b = some x

/-- A search that found nothing: the places visited are held, by elements with no other places. -/
structure Stuck (edges : α → List β) (s s' : State α β) (bs : List β) : Prop where
  assigned : s'.assigned = s.assigned
  mono : s.seen ⊆ s'.seen
  visited : ∀ b ∈ bs, b ∈ s'.seen
  full : ∀ b ∈ s'.seen, b ∉ s.seen → ∃ x, s.assigned b = some x ∧ ∀ b' ∈ edges x, b' ∈ s'.seen

omit [DecidableEq β] in
theorem Ready.of_seen (h : Ready edges s a) (hassigned : s₁.assigned = s.assigned)
    (hseen : s.seen ⊆ s₁.seen) : Ready edges s₁ a where
  valid := by
    rw [hassigned]
    exact h.valid
  inj := by
    rw [hassigned]
    exact fun b b' x hb hb' => h.inj b b' x (fun hmem => hb (hseen hmem)) fun hmem =>
      hb' (hseen hmem)
  away := by
    rw [hassigned]
    exact fun b hb => h.away b fun hmem => hb (hseen hmem)

/-- Once its place is visited, its holder is ready to look for another. -/
theorem Ready.visit {b : β} {previous : α} (h : Ready edges s a) (hb : b ∉ s.seen)
    (hprevious : s.assigned b = some previous) : Ready edges (s.visit b) previous where
  valid := h.valid
  inj b' b'' x hb' hb'' := by
    rw [State.visit, Finset.mem_insert, not_or] at hb' hb''
    exact h.inj b' b'' x hb'.2 hb''.2
  away b' hb' heq := by
    rw [State.visit, Finset.mem_insert, not_or] at hb'
    exact hb'.1 (h.inj b' b previous hb'.2 hb heq hprevious)

theorem State.assigned_assign {b c : β} {x : α} :
    (s.assign b a).assigned c = some x ↔ c = b ∧ x = a ∨ c ≠ b ∧ s.assigned c = some x := by
  rw [State.assign]
  by_cases hc : c = b
  · subst hc
    simp [eq_comm]
  · simp [hc]

/-- `a` takes a place, once those who held places not visited hold others. -/
theorem Ready.assign {b : β} (h : Ready edges s a) (hb : b ∉ s.seen) (hedge : b ∈ edges a)
    (hvalid : ∀ c x, s₁.assigned c = some x → c ∈ edges x)
    (hkept : ∀ c ∈ s.seen, s₁.assigned c = s.assigned c)
    (hinj : ∀ c c' x, c ∉ (s.visit b).seen → c' ∉ (s.visit b).seen →
      s₁.assigned c = some x → s₁.assigned c' = some x → c = c')
    (hholds : ∀ x, (∃ c, c ∉ (s.visit b).seen ∧ s₁.assigned c = some x) ↔
      ∃ c, c ∉ s.seen ∧ s.assigned c = some x) :
    Augmented edges s (s₁.assign b a) a := by
  -- Nobody else holds a place as `a`.
  have haway : ∀ c, c ∉ s.seen → c ≠ b → s₁.assigned c ≠ some a := by
    intro c hc hne heq
    obtain ⟨c', hc', heq'⟩ := (hholds a).mp ⟨c, by simp [State.visit, hne, hc], heq⟩
    exact h.away c' hc' heq'
  refine ⟨fun c x hx => ?_, fun c hc => ?_, fun c c' x hc hc' hx hx' => ?_, fun x => ?_⟩
  · obtain ⟨rfl, rfl⟩ | ⟨-, hx⟩ := State.assigned_assign.mp hx
    · exact hedge
    · exact hvalid c x hx
  · have hne : c ≠ b := by
      rintro rfl
      exact hb hc
    rw [State.assign, ← hkept c hc]
    exact Function.update_of_ne hne _ _
  · obtain ⟨hcb, heq⟩ | ⟨hne, hx⟩ := State.assigned_assign.mp hx <;>
      obtain ⟨hcb', heq'⟩ | ⟨hne', hx'⟩ := State.assigned_assign.mp hx'
    · exact hcb.trans hcb'.symm
    · exact absurd (heq ▸ hx') (haway c' hc' hne')
    · exact absurd (heq' ▸ hx) (haway c hc hne)
    · exact hinj c c' x (by simp [State.visit, hne, hc]) (by simp [State.visit, hne', hc']) hx hx'
  · rw [← hholds]
    constructor
    · rintro ⟨c, hc, hx⟩
      obtain ⟨-, rfl⟩ | ⟨hne, hx⟩ := State.assigned_assign.mp hx
      · exact .inl rfl
      · exact .inr ⟨c, by simp [State.visit, hne, hc], hx⟩
    · rintro (rfl | ⟨c, hc, hx⟩)
      · exact ⟨b, hb, State.assigned_assign.mpr (.inl ⟨rfl, rfl⟩)⟩
      · rw [State.visit, Finset.mem_insert, not_or] at hc
        exact ⟨c, hc.2, State.assigned_assign.mpr (.inr ⟨hc.1, hx⟩)⟩

/-- A place that nobody holds is taken. -/
theorem Ready.take {b : β} (h : Ready edges s a) (hb : b ∉ s.seen) (hedge : b ∈ edges a)
    (hnone : s.assigned b = none) : Augmented edges s ((s.visit b).assign b a) a := by
  refine h.assign hb hedge h.valid (fun _ _ => rfl) (fun c c' x hc hc' => ?_) fun x => ?_
  · rw [State.visit, Finset.mem_insert, not_or] at hc hc'
    exact h.inj c c' x hc.2 hc'.2
  · simp only [State.visit, Finset.mem_insert, not_or]
    constructor
    · rintro ⟨c, hc, hx⟩
      exact ⟨c, hc.2, hx⟩
    · rintro ⟨c, hc, hx⟩
      refine ⟨c, ⟨?_, hc⟩, hx⟩
      rintro rfl
      rw [hnone] at hx
      cases hx

/-- A place is taken from one who has found another. -/
theorem Ready.takeFrom {b : β} {previous : α} (h : Ready edges s a) (hb : b ∉ s.seen)
    (hedge : b ∈ edges a) (hprevious : s.assigned b = some previous)
    (h₁ : Augmented edges (s.visit b) s₁ previous) : Augmented edges s (s₁.assign b a) a := by
  refine h.assign hb hedge h₁.valid (fun c hc => h₁.kept c (Finset.mem_insert_of_mem hc)) h₁.inj
    fun x => ?_
  rw [h₁.holds_iff]
  simp only [State.visit, Finset.mem_insert, not_or]
  constructor
  · rintro (rfl | ⟨c, hc, hx⟩)
    · exact ⟨b, hb, hprevious⟩
    · exact ⟨c, hc.2, hx⟩
  · rintro ⟨c, hc, hx⟩
    by_cases hne : c = b
    · subst hne
      exact .inl (Option.some.inj (hx.symm.trans hprevious))
    · exact .inr ⟨c, ⟨hne, hc⟩, hx⟩

omit [DecidableEq β] in
/-- What a search does after a failure it does from the start: the places visited keep their
holders. -/
theorem Augmented.of_stuck (h : Ready edges s a) (hassigned : s₁.assigned = s.assigned)
    (hseen : s.seen ⊆ s₁.seen) (h₁ : Augmented edges s₁ s' a) : Augmented edges s s' a := by
  have hkept : ∀ c ∈ s₁.seen, s'.assigned c = s.assigned c := fun c hc =>
    (h₁.kept c hc).trans (congrFun hassigned c)
  -- Who holds a place not visited by `s₁` does not hold one it has visited.
  have hapart : ∀ c c' x, c ∉ s.seen → c ∈ s₁.seen → c' ∉ s₁.seen → s'.assigned c = some x →
      s'.assigned c' ≠ some x := by
    intro c c' x hc hmem hc' hx hx'
    rw [hkept c hmem] at hx
    obtain rfl | ⟨c'', hc'', hx''⟩ := (h₁.holds_iff x).mp ⟨c', hc', hx'⟩
    · exact h.away c hc hx
    · rw [hassigned] at hx''
      obtain rfl := h.inj c c'' x hc (fun hmem => hc'' (hseen hmem)) hx hx''
      exact hc'' hmem
  refine ⟨h₁.valid, fun c hc => hkept c (hseen hc), fun c c' x hc hc' hx hx' => ?_, fun x => ?_⟩
  · by_cases hmem : c ∈ s₁.seen <;> by_cases hmem' : c' ∈ s₁.seen
    · exact h.inj c c' x hc hc' (hkept c hmem ▸ hx) (hkept c' hmem' ▸ hx')
    · exact absurd hx' (hapart c c' x hc hmem hmem' hx)
    · exact absurd hx (hapart c' c x hc' hmem' hmem hx')
    · exact h₁.inj c c' x hmem hmem' hx hx'
  · constructor
    · rintro ⟨c, hc, hx⟩
      by_cases hmem : c ∈ s₁.seen
      · exact .inr ⟨c, hc, hkept c hmem ▸ hx⟩
      · refine ((h₁.holds_iff x).mp ⟨c, hmem, hx⟩).imp_right ?_
        rintro ⟨c', hc', hx'⟩
        exact ⟨c', fun hmem' => hc' (hseen hmem'), hassigned ▸ hx'⟩
    · intro hx
      obtain rfl | ⟨c, hc, hx⟩ := hx
      · obtain ⟨c, hc, hx⟩ := (h₁.holds_iff _).mpr (.inl rfl)
        exact ⟨c, fun hmem => hc (hseen hmem), hx⟩
      · by_cases hmem : c ∈ s₁.seen
        · exact ⟨c, hc, (hkept c hmem).trans hx⟩
        · obtain ⟨c', hc', hx'⟩ := (h₁.holds_iff x).mpr (.inr ⟨c, hmem, hassigned ▸ hx⟩)
          exact ⟨c', fun hmem' => hc' (hseen hmem'), hx'⟩

/-- What a search from `s` for a place for `a` gives. -/
def Searched (edges : α → List β) (s : State α β) (a : α) (bs : List β) :
    Bool × State α β → Prop
  | (true, s') => Augmented edges s s' a
  | (false, s') => Stuck edges s s' bs

theorem tryEach_spec {search : α → State α β → Option (Bool × State α β)} {n : Nat} [Fintype β]
    (hsearch : ∀ x s, Fintype.card β < s.seen.card + n → Ready edges s x →
      ∃ result, search x s = some result ∧ Searched edges s x (edges x) result)
    (bs : List β) : ∀ s, (∀ b ∈ bs, b ∈ edges a) → Fintype.card β < s.seen.card + (n + 1) →
      Ready edges s a → ∃ result, tryEach search a bs s = some result ∧
        Searched edges s a bs result := by
  induction bs with
  | nil => exact fun s _ _ _ => ⟨_, rfl, rfl, subset_rfl, nofun, fun b hb hb' => absurd hb hb'⟩
  | cons b bs ih =>
      intro s hedges hcard h
      have htail : ∀ c ∈ bs, c ∈ edges a := fun c hc => hedges c (List.mem_cons_of_mem _ hc)
      rw [tryEach]
      by_cases hb : b ∈ s.seen
      · rw [if_pos hb]
        obtain ⟨⟨ok, s'⟩, heq, hresult⟩ := ih s htail hcard h
        refine ⟨_, heq, ?_⟩
        cases ok with
        | true => exact hresult
        | false =>
            refine ⟨hresult.assigned, hresult.mono, ?_, hresult.full⟩
            rintro c (_ | ⟨_, hc⟩)
            · exact hresult.mono hb
            · exact hresult.visited c hc
      · rw [if_neg hb]
        cases hprevious : s.assigned b with
        | none => exact ⟨_, rfl, h.take hb (hedges b (List.mem_cons_self ..)) hprevious⟩
        | some previous =>
            have hcard' : Fintype.card β < (s.visit b).seen.card + n := by
              rw [State.visit, Finset.card_insert_of_notMem hb]
              omega
            obtain ⟨⟨ok, s₁⟩, heq, hresult⟩ :=
              hsearch previous (s.visit b) hcard' (h.visit hb hprevious)
            simp only [heq]
            cases ok with
            | true =>
                exact ⟨_, rfl, h.takeFrom hb (hedges b (List.mem_cons_self ..)) hprevious hresult⟩
            | false =>
                -- The rest is tried with what the failed search has visited.
                have hassigned : s₁.assigned = s.assigned := hresult.assigned
                have hseen : s.seen ⊆ s₁.seen := (Finset.subset_insert b s.seen).trans hresult.mono
                obtain ⟨⟨ok, s'⟩, heq', hresult'⟩ := ih s₁ htail
                  (hcard.trans_le (Nat.add_le_add_right (Finset.card_le_card hseen) _))
                  (h.of_seen hassigned hseen)
                refine ⟨_, heq', ?_⟩
                cases ok with
                | true => exact .of_stuck h hassigned hseen hresult'
                | false =>
                    have hvisited : b ∈ s₁.seen := hresult.mono (Finset.mem_insert_self ..)
                    refine ⟨hresult'.assigned.trans hassigned, hseen.trans hresult'.mono, ?_,
                      fun c hc hnot => ?_⟩
                    · rintro c (_ | ⟨_, hc⟩)
                      · exact hresult'.mono hvisited
                      · exact hresult'.visited c hc
                    · by_cases hmem : c ∈ s₁.seen
                      · by_cases hne : c = b
                        · subst hne
                          exact ⟨previous, hprevious, fun b' hb' =>
                            hresult'.mono (hresult.visited b' hb')⟩
                        · obtain ⟨x, hx, hfull⟩ := hresult.full c hmem
                            (by simp [State.visit, hne, hnot])
                          exact ⟨x, hx, fun b' hb' => hresult'.mono (hfull b' hb')⟩
                      · obtain ⟨x, hx, hfull⟩ := hresult'.full c hc hmem
                        exact ⟨x, hassigned ▸ hx, hfull⟩

/-- With fuel for the places not visited, a search ends. -/
theorem augment_spec [Fintype β] (n : Nat) : ∀ (a : α) (s : State α β),
    Fintype.card β < s.seen.card + n → Ready edges s a →
      ∃ result, augment edges n a s = some result ∧ Searched edges s a (edges a) result := by
  induction n with
  | zero => exact fun a s hcard _ => absurd hcard (Nat.not_lt.mpr (Finset.card_le_univ _))
  | succ n ih => exact fun a s hcard h => tryEach_spec ih (edges a) s (fun _ => id) hcard h

/-! ### The whole run -/

variable {assigned assigned' : β → Option α}

/-- Places are held along edges, and nobody holds two. -/
structure IsMatching (edges : α → List β) (assigned : β → Option α) : Prop where
  valid : ∀ b x, assigned b = some x → b ∈ edges x
  inj : ∀ b b' x, assigned b = some x → assigned b' = some x → b = b'

omit [DecidableEq β] in
theorem IsMatching.ready (h : IsMatching edges assigned) (haway : ∀ b, assigned b ≠ some a) :
    Ready edges ⟨assigned, ∅⟩ a :=
  ⟨h.valid, fun b b' x _ _ => h.inj b b' x, fun b _ => haway b⟩

omit [DecidableEq β] in
theorem Augmented.isMatching (h : Augmented edges ⟨assigned, ∅⟩ s' a) :
    IsMatching edges s'.assigned :=
  ⟨h.valid, fun b b' x => h.inj b b' x (Finset.notMem_empty b) (Finset.notMem_empty b')⟩

omit [DecidableEq β] in
theorem Augmented.held_iff (h : Augmented edges ⟨assigned, ∅⟩ s' a) (x : α) :
    (∃ b, s'.assigned b = some x) ↔ x = a ∨ ∃ b, assigned b = some x := by
  have := h.holds_iff x
  simpa only [Finset.notMem_empty, not_false_eq_true, true_and] using this

/-- The elements a stuck search has met are more than the places they have. -/
theorem Stuck.no_injection (hmatching : IsMatching edges assigned)
    (haway : ∀ b, assigned b ≠ some a) (h : Stuck edges ⟨assigned, ∅⟩ s' (edges a)) :
    ¬ ∃ f : α → β, f.Injective ∧ ∀ x, f x ∈ edges x := by
  classical
  have : Nonempty α := ⟨a⟩
  rintro ⟨f, hinj, hedges⟩
  -- `holder` lists those who hold the places visited; with `a` they are one more.
  have hheld : ∀ b ∈ s'.seen, ∃ x, assigned b = some x ∧ ∀ b' ∈ edges x, b' ∈ s'.seen :=
    fun b hb => h.full b hb (Finset.notMem_empty b)
  choose! holder hholder hclosed using hheld
  have hholderInj : Set.InjOn holder s'.seen := fun b hb b' hb' heq =>
    hmatching.inj b b' (holder b) (hholder b hb) (heq ▸ hholder b' hb')
  have hnotMem : a ∉ s'.seen.image holder := by
    intro hmem
    obtain ⟨b, hb, rfl⟩ := Finset.mem_image.mp hmem
    exact haway b (hholder b hb)
  have hsub : (insert a (s'.seen.image holder)).image f ⊆ s'.seen := by
    intro b hb
    obtain ⟨x, hx, rfl⟩ := Finset.mem_image.mp hb
    obtain rfl | hx := Finset.mem_insert.mp hx
    · exact h.visited _ (hedges x)
    · obtain ⟨b', hb', rfl⟩ := Finset.mem_image.mp hx
      exact hclosed b' hb' _ (hedges _)
  have hcard := Finset.card_le_card hsub
  rw [Finset.card_image_of_injective _ hinj, Finset.card_insert_of_notMem hnotMem,
    Finset.card_image_of_injOn hholderInj] at hcard
  exact Nat.not_succ_le_self _ hcard

/-- The induction is on the elements that are left; those before them hold places. -/
theorem matchAll_spec [Fintype β] (as : List α) : ∀ assigned : β → Option α,
    IsMatching edges assigned → as.Nodup → (∀ a ∈ as, ∀ b, assigned b ≠ some a) →
      ∃ ok assigned', matchAll edges (Fintype.card β + 1) as assigned = some (ok, assigned') ∧
        match ok with
        | true => IsMatching edges assigned' ∧
            ∀ x, (∃ b, assigned' b = some x) ↔ x ∈ as ∨ ∃ b, assigned b = some x
        | false => ¬ ∃ f : α → β, f.Injective ∧ ∀ x, f x ∈ edges x := by
  induction as with
  | nil =>
      intro assigned h _ _
      refine ⟨true, assigned, rfl, h, fun x => ?_⟩
      simp
  | cons a as ih =>
      intro assigned h hnodup haway
      rw [List.nodup_cons] at hnodup
      have ha : ∀ b, assigned b ≠ some a := haway a (List.mem_cons_self ..)
      obtain ⟨⟨ok, s'⟩, heq, hresult⟩ := augment_spec (Fintype.card β + 1) a ⟨assigned, ∅⟩
        (by simp) (h.ready ha)
      simp only [matchAll, heq]
      cases ok with
      | false => exact ⟨false, s'.assigned, rfl, Stuck.no_injection h ha hresult⟩
      | true =>
          obtain ⟨ok, assigned', heq', hrest⟩ := ih s'.assigned hresult.isMatching hnodup.2 (by
            intro x hx b hb
            obtain rfl | ⟨b', hb'⟩ := (hresult.held_iff x).mp ⟨b, hb⟩
            · exact hnodup.1 hx
            · exact haway x (List.mem_cons_of_mem _ hx) b' hb')
          refine ⟨ok, assigned', heq', ?_⟩
          cases ok with
          | false => exact hrest
          | true =>
              refine ⟨hrest.1, fun x => ?_⟩
              rw [hrest.2, hresult.held_iff, List.mem_cons]
              tauto

/-- All find a place, and every place is taken: then the graph has a bijection, and only then. -/
theorem perfect_iff [Fintype α] [Fintype β] {as : List α} (hnodup : as.Nodup) (hall : ∀ a, a ∈ as) :
    ∃ ok assigned, matchAll edges (Fintype.card β + 1) as (fun _ => none) = some (ok, assigned) ∧
      ((ok = true ∧ ∀ b, assigned b ≠ none) ↔ ∃ f : α ≃ β, ∀ a, f a ∈ edges a) := by
  obtain ⟨ok, assigned, heq, hresult⟩ := @matchAll_spec _ _ _ edges _ as (fun _ : β => none)
    ⟨nofun, nofun⟩ hnodup fun a _ b => nofun
  refine ⟨ok, assigned, heq, ?_⟩
  cases ok with
  | false =>
      refine ⟨nofun, ?_⟩
      rintro ⟨f, hf⟩
      exact absurd ⟨f, f.injective, hf⟩ hresult
  | true =>
      obtain ⟨hmatching, hheld⟩ := hresult
      -- Every element holds one place.
      have hplace : ∀ a, ∃ b, assigned b = some a := fun a => (hheld a).mpr (.inl (hall a))
      choose place hplaced using hplace
      have hinj : place.Injective := fun a a' h =>
        Option.some.inj ((hplaced a).symm.trans (h ▸ hplaced a'))
      constructor
      · rintro ⟨-, hfull⟩
        refine ⟨Equiv.ofBijective place ⟨hinj, fun b => ?_⟩,
          fun a => hmatching.valid _ _ (hplaced a)⟩
        obtain ⟨a, ha⟩ := Option.ne_none_iff_exists'.mp (hfull b)
        exact ⟨a, hmatching.inj _ _ a (hplaced a) ha⟩
      · rintro ⟨f, -⟩
        refine ⟨rfl, fun b => ?_⟩
        have hbij := (Fintype.bijective_iff_injective_and_card place).mpr
          ⟨hinj, Fintype.card_congr f⟩
        obtain ⟨a, rfl⟩ := hbij.2 b
        rw [hplaced]
        nofun

/-! ### Lists -/

section Lists

variable {A B C : Type} {l l' : List A} {m m' : List B}

/-- The entries of two lists, one to one. -/
def Paired (R : A → B → Prop) (l : List A) (m : List B) : Prop :=
  ∃ f : Fin l.length ≃ Fin m.length, ∀ i, R l[i] m[f i]

theorem Paired.trans {R : A → B → Prop} {S : B → C → Prop} {n : List C} (h : Paired R l m)
    (h' : Paired S m n) : Paired (fun a c => ∃ b, R a b ∧ S b c) l n := by
  obtain ⟨f, hf⟩ := h
  obtain ⟨g, hg⟩ := h'
  exact ⟨f.trans g, fun i => ⟨_, hf i, hg (f i)⟩⟩

theorem paired_of_perm (h : l.Perm l') : Paired (· = ·) l l' := by
  induction h with
  | nil => exact ⟨Equiv.refl _, fun i => rfl⟩
  | @cons a l l' _ ih =>
      obtain ⟨f, hf⟩ := ih
      refine ⟨((finSuccEquiv _).trans f.optionCongr).trans (finSuccEquiv _).symm, fun i => ?_⟩
      refine i.cases ?_ fun i => ?_
      · simp
      · simpa using hf i
  | swap a b l =>
      refine ⟨Equiv.swap 0 1, fun i => ?_⟩
      refine i.cases ?_ fun i => i.cases ?_ fun i => ?_
      · simp
      · simp
      · have hfix : Equiv.swap (0 : Fin (l.length + 2)) 1 i.succ.succ = i.succ.succ :=
          Equiv.swap_apply_of_ne_of_ne (by simp) (by simp [Fin.ext_iff])
        simp only [List.length_cons, hfix]
        rfl
  | trans _ _ ih ih' =>
      obtain ⟨f, hf⟩ := ih.trans ih'
      refine ⟨f, fun i => ?_⟩
      obtain ⟨b, hb, hb'⟩ := hf i
      exact hb.trans hb'

/-- Whether two lists can be paired does not depend on their orders. -/
theorem paired_congr {R : A → B → Prop} (hl : l.Perm l') (hm : m.Perm m') :
    Paired R l m ↔ Paired R l' m' := by
  have himp {l l' : List A} {m m' : List B} (hl : l'.Perm l) (hm : m.Perm m')
      (h : Paired R l m) : Paired R l' m' := by
    obtain ⟨f, hf⟩ := ((paired_of_perm hl).trans h).trans (paired_of_perm hm)
    refine ⟨f, fun i => ?_⟩
    obtain ⟨b, ⟨a, ha, hab⟩, hb⟩ := hf i
    rw [ha, ← hb]
    exact hab
  exact ⟨himp hl.symm hm, himp hl hm.symm⟩

end Lists

end Sage.Library.Bipartite
