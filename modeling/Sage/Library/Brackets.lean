import Mathlib.Data.List.Induction
import Mathlib.Order.Nat

/-!
# Library — bracket words

A word of brackets with other symbols between them.  A closing bracket fits some opening ones.

* `Balanced` — every bracket is closed by one that fits, in nesting order.
* `scan` — the brackets that are open after a word, innermost first.
* `balanced_iff_scan` — a word is balanced exactly if a scan of it leaves nothing open.
* `Matches` — an opening bracket and the one that closes it, by their positions.
* `pairing` — the matching brackets of any word, and those without a match.
-/

namespace Brackets

inductive Symbol (α β : Type) where
  | opens (a : α)
  | closes (b : β)
  | other

variable {α β : Type} (fits : α → β → Prop)

inductive Balanced : List (Symbol α β) → Prop where
  | nil : Balanced []
  | other {rest : List (Symbol α β)} (hrest : Balanced rest) : Balanced (.other :: rest)
  | pair {a : α} {b : β} {inner rest : List (Symbol α β)} (hfits : fits a b)
      (hinner : Balanced inner) (hrest : Balanced rest) :
      Balanced (.opens a :: (inner ++ .closes b :: rest))

/-- The open brackets after a word, unless a bracket is closed by one that does not fit it. -/
@[grind =] def scan [DecidableRel fits] : List α → List (Symbol α β) → Option (List α)
  | stack, [] => some stack
  | stack, .other :: word => scan stack word
  | stack, .opens a :: word => scan (a :: stack) word
  | [], .closes _ :: _ => none
  | a :: stack, .closes b :: word => if fits a b then scan stack word else none

/-- A word closes what is open, with a balanced word before each of the closing brackets. -/
def Unwinds : List α → List (Symbol α β) → Prop
  | [], word => Balanced fits word
  | a :: stack, word => ∃ inner b rest, word = inner ++ .closes b :: rest ∧ fits a b ∧
      Balanced fits inner ∧ Unwinds stack rest

variable {fits}

theorem Balanced.append {word word' : List (Symbol α β)} (h : Balanced fits word)
    (h' : Balanced fits word') : Balanced fits (word ++ word') := by
  induction h with
  | nil => exact h'
  | other hrest ih => exact .other ih
  | pair hfits hinner hrest ihinner ihrest =>
      rw [List.cons_append, List.append_assoc, List.cons_append]
      exact .pair hfits hinner ihrest

/-! ### Scanning -/

theorem unwinds_other {stack : List α} {word : List (Symbol α β)} (h : Unwinds fits stack word) :
    Unwinds fits stack (.other :: word) := by
  cases stack with
  | nil => exact .other h
  | cons a stack =>
      obtain ⟨inner, b, rest, rfl, hfits, hinner, hrest⟩ := h
      exact ⟨.other :: inner, b, rest, rfl, hfits, .other hinner, hrest⟩

/-- A bracket that is closed is part of the balanced word before the next closing bracket. -/
theorem unwinds_opens {a : α} {stack : List α} {word : List (Symbol α β)}
    (h : Unwinds fits (a :: stack) word) : Unwinds fits stack (.opens a :: word) := by
  obtain ⟨inner, b, rest, rfl, hfits, hinner, hrest⟩ := h
  cases stack with
  | nil => exact .pair hfits hinner hrest
  | cons a' stack =>
      obtain ⟨inner', b', rest', rfl, hfits', hinner', hrest'⟩ := hrest
      refine ⟨.opens a :: (inner ++ .closes b :: inner'), b', rest', ?_, hfits',
        .pair hfits hinner hinner', hrest'⟩
      simp only [List.cons_append, List.append_assoc]

variable [DecidableRel fits]

theorem scan_append (stack : List α) (word word' : List (Symbol α β)) :
    scan fits stack (word ++ word') = (scan fits stack word).bind (scan fits · word') := by
  induction word generalizing stack with
  | nil => rfl
  | cons symbol word ih =>
      cases symbol with
      | opens a => exact ih (a :: stack)
      | other => exact ih stack
      | closes b =>
          cases stack with
          | nil => rfl
          | cons a stack =>
              rw [List.cons_append, scan, scan]
              split_ifs
              · exact ih stack
              · rfl

theorem scan_balanced {word : List (Symbol α β)} (h : Balanced fits word) (stack : List α) :
    scan fits stack word = some stack := by
  induction h generalizing stack with
  | nil => rfl
  | other hrest ih => exact ih stack
  | pair hfits hinner hrest ihinner ihrest =>
      rw [scan, scan_append, ihinner, Option.bind_some, scan, if_pos hfits, ihrest]

/-- The induction is on the word: what a scan closes, the word closes in nesting order. -/
theorem unwinds_of_scan {stack : List α} {word : List (Symbol α β)}
    (h : scan fits stack word = some []) : Unwinds fits stack word := by
  induction word generalizing stack with
  | nil =>
      cases h
      exact .nil
  | cons symbol word ih =>
      cases symbol with
      | other => exact unwinds_other (ih h)
      | opens a => exact unwinds_opens (ih h)
      | closes b =>
          cases stack with
          | nil => cases h
          | cons a stack =>
              rw [scan] at h
              split_ifs at h with hfits
              exact ⟨[], b, word, rfl, hfits, .nil, ih h⟩

theorem balanced_iff_scan {word : List (Symbol α β)} :
    Balanced fits word ↔ scan fits [] word = some [] :=
  ⟨fun h => scan_balanced h [], fun h => unwinds_of_scan h⟩

/-! ### Matching brackets -/

/-- The bracket at `i` is closed by the one at `j`: what is between them is balanced. -/
def Matches (word : List (Symbol α β)) (i j : Nat) : Prop :=
  ∃ before a inner b after, word = before ++ .opens a :: (inner ++ .closes b :: after) ∧
    before.length = i ∧ i + inner.length + 1 = j ∧ Balanced (fun _ _ => True) inner

/-- What is known of the positions of a word, the open ones with the innermost first. -/
structure Pairing where
  stack : List Nat
  pairs : List (Nat × Nat)
  unopened : List Nat

@[grind =] def Pairing.step (p : Pairing) (n : Nat) : Symbol α β → Pairing
  | .opens _ => { p with stack := n :: p.stack }
  | .other => p
  | .closes _ =>
      match p.stack with
      | i :: stack => { p with stack, pairs := p.pairs ++ [(i, n)] }
      | [] => { p with unopened := p.unopened ++ [n] }

/-- The brackets of a word from the position `n` on. -/
@[grind =] def Pairing.run (p : Pairing) : Nat → List (Symbol α β) → Pairing
  | _, [] => p
  | n, symbol :: word => (p.step n symbol).run (n + 1) word

def pairing (word : List (Symbol α β)) : Pairing := Pairing.run ⟨[], [], []⟩ 0 word

theorem Pairing.run_append (p : Pairing) (n : Nat) (word word' : List (Symbol α β)) :
    p.run n (word ++ word') = (p.run n word).run (n + word.length) word' := by
  induction word generalizing p n with
  | nil => rfl
  | cons symbol word ih =>
      rw [List.cons_append, run, run, ih, List.length_cons, Nat.add_right_comm, Nat.add_assoc]

theorem pairing_snoc (word : List (Symbol α β)) (symbol : Symbol α β) :
    pairing (word ++ [symbol]) = (pairing word).step word.length symbol := by
  rw [pairing, Pairing.run_append, Nat.zero_add]
  rfl

theorem Matches.append {word : List (Symbol α β)} {i j : Nat} (h : Matches word i j)
    (word' : List (Symbol α β)) : Matches (word ++ word') i j := by
  obtain ⟨before, a, inner, b, after, rfl, hi, hj, hinner⟩ := h
  refine ⟨before, a, inner, b, after ++ word', ?_, hi, hj, hinner⟩
  simp only [List.append_assoc, List.cons_append]

/-- Matching brackets of a word that stand in its first part match there. -/
theorem Matches.restrict {word word' : List (Symbol α β)} {i j : Nat}
    (h : Matches (word ++ word') i j) (hj : j < word.length) : Matches word i j := by
  obtain ⟨before, a, inner, b, after, heq, hi, hij, hinner⟩ := h
  have hsplit : before ++ .opens a :: (inner ++ .closes b :: after) =
      (before ++ .opens a :: (inner ++ [.closes b])) ++ after := by
    simp only [List.append_assoc, List.cons_append, List.nil_append]
  obtain ⟨rest, hrest, -⟩ | ⟨rest, hrest, -⟩ := List.append_eq_append_iff.mp (heq.trans hsplit)
  · -- the closing bracket is the last symbol of what is split off
    have hlength := congrArg List.length hrest
    simp only [List.length_append, List.length_cons, List.length_nil] at hlength
    have hnil : rest = [] := List.length_eq_zero_iff.mp (by omega)
    rw [hnil, List.append_nil] at hrest
    exact ⟨before, a, inner, b, [], hrest.symm, hi, hij, hinner⟩
  · refine ⟨before, a, inner, b, rest, ?_, hi, hij, hinner⟩
    rw [hrest]
    simp only [List.append_assoc, List.cons_append, List.nil_append]

/-- Between the open brackets of a word, and after the last of them, it is balanced. -/
def Stacked : List Nat → List (Symbol α β) → Prop
  | [], _ => True
  | i :: stack, word => ∃ before a inner, word = before ++ .opens a :: inner ∧
      before.length = i ∧ Balanced (fun _ _ => True) inner ∧ Stacked stack before

theorem Stacked.lt {stack : List Nat} {word : List (Symbol α β)} (h : Stacked stack word) :
    ∀ i ∈ stack, i < word.length := by
  induction stack generalizing word with
  | nil => exact List.forall_mem_nil _
  | cons i stack ih =>
      obtain ⟨before, a, inner, rfl, rfl, -, hstack⟩ := h
      have hlt : before.length < (before ++ Symbol.opens a :: inner).length := by
        rw [List.length_append, List.length_cons]
        exact Nat.lt_add_of_pos_right (Nat.succ_pos _)
      exact List.forall_mem_cons.mpr ⟨hlt, fun k hk => (ih hstack k hk).trans hlt⟩

theorem Stacked.sorted {stack : List Nat} {word : List (Symbol α β)} (h : Stacked stack word) :
    stack.Pairwise (· > ·) := by
  induction stack generalizing word with
  | nil => exact .nil
  | cons i stack ih =>
      obtain ⟨before, a, inner, -, rfl, -, hstack⟩ := h
      exact .cons hstack.lt (ih hstack)

theorem Stacked.append {stack : List Nat} {word word' : List (Symbol α β)}
    (h : Stacked stack word) (h' : Balanced (fun _ _ => True) word') :
    Stacked stack (word ++ word') := by
  cases stack with
  | nil => trivial
  | cons i stack =>
      obtain ⟨before, a, inner, rfl, hi, hinner, hstack⟩ := h
      refine ⟨before, a, inner ++ word', ?_, hi, hinner.append h', hstack⟩
      rw [List.append_assoc, List.cons_append]

/-- A balanced word leaves the open brackets and the unopened ones as they are. -/
theorem Pairing.run_balanced {word : List (Symbol α β)}
    (h : Balanced (fun _ _ => True) word) (p : Pairing) (n : Nat) :
    (p.run n word).stack = p.stack ∧ (p.run n word).unopened = p.unopened := by
  induction h generalizing p n with
  | nil => exact ⟨rfl, rfl⟩
  | other hrest ih => exact ih p (n + 1)
  | @pair a b inner rest hfits hinner hrest ihinner ihrest =>
      rw [run, run_append, run]
      obtain ⟨hstack, hunopened⟩ := ihinner (p.step n (.opens a : Symbol α β)) (n + 1)
      generalize (p.step n (.opens a : Symbol α β)).run (n + 1) inner = p' at *
      obtain ⟨hstack', hunopened'⟩ := ihrest
        (p'.step (n + 1 + inner.length) (.closes b : Symbol α β)) (n + 1 + inner.length + 1)
      rw [hstack', hunopened']
      simp only [step, hstack]
      exact ⟨trivial, hunopened⟩

theorem Pairing.step_pairs (p : Pairing) (n : Nat) (symbol : Symbol α β) :
    p.pairs ⊆ (p.step n symbol).pairs := by
  cases symbol with
  | opens a => exact fun _ h => h
  | other => exact fun _ h => h
  | closes b =>
      rw [step]
      split
      · exact List.subset_append_left _ _
      · exact fun _ h => h

theorem Pairing.run_pairs (p : Pairing) (n : Nat) (word : List (Symbol α β)) :
    p.pairs ⊆ (p.run n word).pairs := by
  induction word generalizing p n with
  | nil => exact fun _ h => h
  | cons symbol word ih => exact List.Subset.trans (p.step_pairs n symbol) (ih _ _)

/-- The opening bracket is on top of the stack when its closing one is read. -/
theorem mem_pairs_of_matches {word : List (Symbol α β)} {i j : Nat} (h : Matches word i j) :
    (i, j) ∈ (pairing word).pairs := by
  obtain ⟨before, a, inner, b, after, rfl, hi, hj, hinner⟩ := h
  rw [pairing, Pairing.run_append, Nat.zero_add, hi, Pairing.run, Pairing.run_append, Pairing.run]
  apply Pairing.run_pairs
  generalize Pairing.run ⟨[], [], []⟩ 0 before = p
  obtain ⟨hstack, -⟩ := Pairing.run_balanced hinner (p.step i (.opens a : Symbol α β)) (i + 1)
  simp only [Pairing.step] at hstack ⊢
  rw [hstack, ← hj, Nat.add_right_comm]
  exact List.mem_append_right _ (List.mem_singleton_self _)

/-- What holds of the positions of a word. -/
structure Paired (word : List (Symbol α β)) (p : Pairing) : Prop where
  stacked : Stacked p.stack word
  pairs : ∀ i j, (i, j) ∈ p.pairs → Matches word i j
  opened : ∀ i, i ∈ p.stack ↔ (∃ a, word[i]? = some (.opens a)) ∧ ∀ j, (i, j) ∉ p.pairs
  closed : ∀ j, j ∈ p.unopened ↔ (∃ b, word[j]? = some (.closes b)) ∧ ∀ i, (i, j) ∉ p.pairs
  sorted : p.unopened.Pairwise (· < ·)

theorem Matches.lt {word : List (Symbol α β)} {i j : Nat} (h : Matches word i j) :
    i < j ∧ j < word.length := by
  obtain ⟨before, a, inner, b, after, rfl, rfl, rfl, -⟩ := h
  simp only [List.length_append, List.length_cons]
  omega

theorem getElem?_snoc {word : List (Symbol α β)} {symbol symbol' : Symbol α β} {n : Nat} :
    (word ++ [symbol])[n]? = some symbol' ↔
      word[n]? = some symbol' ∨ n = word.length ∧ symbol = symbol' := by
  rw [List.getElem?_append]
  split_ifs with h
  · simp [h.ne]
  · rw [List.getElem?_eq_none_iff.mpr (Nat.le_of_not_lt h), List.getElem?_singleton]
    split_ifs with h'
    · simp [Nat.le_antisymm (Nat.sub_eq_zero_iff_le.mp h') (Nat.le_of_not_lt h)]
    · simp only [false_or, false_iff, not_and]
      rintro rfl
      exact absurd (Nat.sub_self _) h'

/-- The induction is on the word, with the last symbol as its step. -/
theorem paired (word : List (Symbol α β)) : Paired word (pairing word) := by
  induction word using List.reverseRecOn with
  | nil =>
      refine ⟨trivial, ?_, ?_, ?_, .nil⟩
      · rintro i j ⟨⟩
      · simp [pairing, Pairing.run]
      · simp [pairing, Pairing.run]
  | append_singleton word symbol ih =>
      rw [pairing_snoc]
      generalize pairing word = p at *
      have hpairs : ∀ i j, (i, j) ∈ p.pairs → i < j ∧ j < word.length :=
        fun i j h => (ih.pairs i j h).lt
      cases symbol with
      | other =>
          refine ⟨ih.stacked.append (.other .nil), fun i j h => (ih.pairs i j h).append _, ?_, ?_,
            ih.sorted⟩
          · simp only [getElem?_snoc, reduceCtorEq, and_false, or_false]
            exact ih.opened
          · simp only [getElem?_snoc, reduceCtorEq, and_false, or_false]
            exact ih.closed
      | opens a =>
          refine ⟨⟨word, a, [], rfl, rfl, .nil, ih.stacked⟩,
            fun i j h => (ih.pairs i j h).append _, ?_, ?_, ih.sorted⟩
          · intro i
            simp only [Pairing.step, List.mem_cons, getElem?_snoc, Symbol.opens.injEq, ih.opened]
            constructor
            · rintro (rfl | ⟨⟨a', ha'⟩, h⟩)
              · exact ⟨⟨a, .inr ⟨rfl, rfl⟩⟩, fun j hj =>
                  absurd ((hpairs _ _ hj).1.trans (hpairs _ _ hj).2) (Nat.lt_irrefl _)⟩
              · exact ⟨⟨a', .inl ha'⟩, h⟩
            · rintro ⟨⟨a', ha' | ⟨rfl, -⟩⟩, h⟩
              · exact .inr ⟨⟨a', ha'⟩, h⟩
              · exact .inl rfl
          · simp only [Pairing.step, getElem?_snoc, reduceCtorEq, and_false, or_false]
            exact ih.closed
      | closes b =>
          cases hstack : p.stack with
          | nil =>
              simp only [Pairing.step, hstack]
              refine ⟨trivial, fun i j h => (ih.pairs i j h).append _, ?_, ?_, ?_⟩
              · simp only [getElem?_snoc, reduceCtorEq, and_false, or_false]
                rw [← hstack]
                exact ih.opened
              · intro j
                simp only [List.mem_append, List.mem_singleton, getElem?_snoc,
                  Symbol.closes.injEq, ih.closed]
                constructor
                · rintro (⟨⟨b', hb'⟩, h⟩ | rfl)
                  · exact ⟨⟨b', .inl hb'⟩, h⟩
                  · exact ⟨⟨b, .inr ⟨rfl, rfl⟩⟩, fun i hi =>
                      absurd (hpairs _ _ hi).2 (Nat.lt_irrefl _)⟩
                · rintro ⟨⟨b', hb' | ⟨rfl, -⟩⟩, h⟩
                  · exact .inl ⟨⟨b', hb'⟩, h⟩
                  · exact .inr rfl
              · refine List.pairwise_append.mpr ⟨ih.sorted, List.pairwise_singleton _ _, ?_⟩
                intro i hi j hj
                obtain ⟨⟨b', hb'⟩, -⟩ := (ih.closed i).mp hi
                rw [List.mem_singleton.mp hj]
                exact (List.getElem?_eq_some_iff.mp hb').1
          | cons k stack =>
              simp only [Pairing.step, hstack]
              have hstacked := ih.stacked
              rw [hstack] at hstacked
              obtain ⟨before, a, inner, hword, hk, hinner, hbefore⟩ := hstacked
              have hmatch : Matches (word ++ [.closes b]) k word.length := by
                refine ⟨before, a, inner, b, [], ?_, hk, ?_, hinner⟩
                · rw [hword, List.append_assoc, List.cons_append]
                · rw [hword, List.length_append, List.length_cons, hk, Nat.add_assoc]
              have hsorted := ih.stacked.sorted
              rw [hstack, List.pairwise_cons] at hsorted
              refine ⟨?_, ?_, ?_, ?_, ih.sorted⟩
              · have h : Balanced (fun _ _ => True)
                    (Symbol.opens a :: (inner ++ [Symbol.closes b])) := .pair trivial hinner .nil
                rw [hword, List.append_assoc, List.cons_append]
                exact hbefore.append h
              · intro i j h
                obtain h | h := List.mem_append.mp h
                · exact (ih.pairs i j h).append _
                · cases List.mem_singleton.mp h
                  exact hmatch
              · intro i
                have hopened := ih.opened i
                rw [hstack, List.mem_cons] at hopened
                simp only [getElem?_snoc, reduceCtorEq, and_false, or_false, List.mem_append,
                  List.mem_singleton, Prod.mk.injEq, not_or, not_and]
                constructor
                · intro hi
                  obtain ⟨h, hnot⟩ := hopened.mp (.inr hi)
                  refine ⟨h, fun j => ⟨hnot j, ?_⟩⟩
                  rintro rfl
                  exact absurd (hsorted.1 i hi) (Nat.lt_irrefl _)
                · rintro ⟨h, hnot⟩
                  obtain rfl | hi := hopened.mpr ⟨h, fun j => (hnot j).1⟩
                  · exact absurd rfl ((hnot word.length).2 rfl)
                  · exact hi
              · intro j
                simp only [getElem?_snoc, List.mem_append, List.mem_singleton, Prod.mk.injEq,
                  not_or, not_and, Symbol.closes.injEq]
                rw [ih.closed j]
                constructor
                · rintro ⟨⟨b', hb'⟩, hnot⟩
                  have hj := (List.getElem?_eq_some_iff.mp hb').1
                  exact ⟨⟨b', .inl hb'⟩, fun i => ⟨hnot i, fun _ => hj.ne⟩⟩
                · rintro ⟨⟨b', hb' | ⟨rfl, -⟩⟩, hnot⟩
                  · exact ⟨⟨b', hb'⟩, fun i => (hnot i).1⟩
                  · exact absurd rfl ((hnot k).2 rfl)

theorem mem_pairs {word : List (Symbol α β)} {i j : Nat} :
    (i, j) ∈ (pairing word).pairs ↔ Matches word i j :=
  ⟨(paired word).pairs i j, mem_pairs_of_matches⟩

/-- The brackets without a match, by the stack and by what was unopened. -/
theorem mem_stack {word : List (Symbol α β)} {i : Nat} :
    i ∈ (pairing word).stack ↔ (∃ a, word[i]? = some (.opens a)) ∧ ∀ j, ¬Matches word i j := by
  rw [(paired word).opened i]
  exact and_congr Iff.rfl (forall_congr' fun j => not_congr mem_pairs)

theorem mem_unopened {word : List (Symbol α β)} {j : Nat} :
    j ∈ (pairing word).unopened ↔
      (∃ b, word[j]? = some (.closes b)) ∧ ∀ i, ¬Matches word i j := by
  rw [(paired word).closed j]
  exact and_congr Iff.rfl (forall_congr' fun i => not_congr mem_pairs)

theorem matches_snoc_other {word : List (Symbol α β)} {i j : Nat} :
    Matches (word ++ [.other]) i j ↔ Matches word i j := by
  rw [← mem_pairs, ← mem_pairs, pairing_snoc]
  rfl

theorem matches_snoc_opens {word : List (Symbol α β)} {a : α} {i j : Nat} :
    Matches (word ++ [.opens a]) i j ↔ Matches word i j := by
  rw [← mem_pairs, ← mem_pairs, pairing_snoc]
  rfl

/-- The brackets of a word that is not scanned to its end have one that is unopened. -/
theorem scan_of_unopened (word : List (Symbol α β)) (h : (pairing word).unopened = []) :
    ∃ stack, scan (fun _ _ => True) [] word = some stack ∧
      stack.length = (pairing word).stack.length := by
  induction word using List.reverseRecOn with
  | nil => exact ⟨[], rfl, rfl⟩
  | append_singleton word symbol ih =>
      rw [pairing_snoc] at h ⊢
      cases symbol with
      | other =>
          obtain ⟨stack, hscan, hlength⟩ := ih h
          exact ⟨stack, by rw [scan_append, hscan]; rfl, hlength⟩
      | opens a =>
          obtain ⟨stack, hscan, hlength⟩ := ih h
          exact ⟨a :: stack, by rw [scan_append, hscan]; rfl, congrArg Nat.succ hlength⟩
      | closes b =>
          cases hstack : (pairing word).stack with
          | nil =>
              simp only [Pairing.step, hstack] at h
              exact absurd h (List.append_ne_nil_of_right_ne_nil _ (List.cons_ne_nil _ _))
          | cons k rest =>
              simp only [Pairing.step, hstack] at h ⊢
              obtain ⟨stack, hscan, hlength⟩ := ih h
              rw [hstack] at hlength
              cases stack with
              | nil => cases hlength
              | cons a stack =>
                  refine ⟨stack, ?_, Nat.succ.inj hlength⟩
                  rw [scan_append, hscan, Option.bind_some, scan, if_pos trivial, scan]

theorem balanced_iff_pairing {word : List (Symbol α β)} :
    Balanced (fun _ _ => True) word ↔
      (pairing word).stack = [] ∧ (pairing word).unopened = [] := by
  constructor
  · exact fun h => Pairing.run_balanced h _ 0
  · rintro ⟨hstack, hunopened⟩
    obtain ⟨stack, hscan, hlength⟩ := scan_of_unopened word hunopened
    rw [hstack, List.length_nil, List.length_eq_zero_iff] at hlength
    exact balanced_iff_scan.mpr (hlength ▸ hscan)

/-- A balanced word is over before the first closing bracket that nothing opens. -/
theorem Balanced.eq_of_closes {inner inner' after after' : List (Symbol α β)} {b b' : β}
    (h : Balanced (fun _ _ => True) inner) (h' : Balanced (fun _ _ => True) inner')
    (heq : inner ++ .closes b :: after = inner' ++ .closes b' :: after') : inner = inner' := by
  have hnot {inner inner' rest : List (Symbol α β)} {b : β}
      (h : Balanced (fun _ _ => True) inner) (h' : Balanced (fun _ _ => True) inner') :
      inner' ≠ inner ++ .closes b :: rest := by
    rintro rfl
    have hscan := scan_balanced h' []
    rw [scan_append, scan_balanced h, Option.bind_some, scan] at hscan
    cases hscan
  obtain ⟨rest, hinner, hrest⟩ | ⟨rest, hinner, hrest⟩ := List.append_eq_append_iff.mp heq
  · cases rest with
    | nil => rw [hinner, List.append_nil]
    | cons symbol rest =>
        rw [List.cons_append] at hrest
        cases hrest
        exact absurd hinner (hnot h h')
  · cases rest with
    | nil => rw [hinner, List.append_nil]
    | cons symbol rest =>
        rw [List.cons_append] at hrest
        cases hrest
        exact absurd hinner (hnot h' h)

theorem Matches.unique {word : List (Symbol α β)} {i j j' : Nat} (h : Matches word i j)
    (h' : Matches word i j') : j = j' := by
  obtain ⟨before, a, inner, b, after, rfl, hi, rfl, hinner⟩ := h
  obtain ⟨before', a', inner', b', after', heq, hi', rfl, hinner'⟩ := h'
  obtain ⟨-, heq⟩ := List.append_inj heq (hi.trans hi'.symm)
  rw [hinner.eq_of_closes hinner' (List.cons.inj heq).2]

/-- Two pairs of matching brackets are apart, or one is inside the other. -/
theorem Matches.nested {word : List (Symbol α β)} {i j i' j' : Nat} (h : Matches word i j)
    (h' : Matches word i' j') (hlt : i < i') : j < i' ∨ j' < j := by
  by_contra hnot
  obtain ⟨hle, hge⟩ := not_or.mp hnot
  obtain ⟨before, a, inner, b, after, hword, rfl, rfl, hinner⟩ := h
  obtain ⟨before', a', inner', b', after', hword', rfl, rfl, hinner'⟩ := h'
  -- the bracket at the second position is one of those between the first two
  have hopens : ∃ a, inner[before'.length - (before.length + 1)]? = some (.opens a) := by
    have hget : word[before'.length]? = some (.opens a') := by
      rw [hword', List.getElem?_append_right (Nat.le_refl _), Nat.sub_self]
      rfl
    rw [hword, List.getElem?_append_right hlt.le,
      ← Nat.succ_pred_eq_of_pos (Nat.sub_pos_of_lt hlt), List.getElem?_cons_succ,
      List.getElem?_append] at hget
    have hpred : Nat.pred (before'.length - before.length) =
        before'.length - (before.length + 1) := rfl
    rw [hpred] at hget
    split_ifs at hget with hinside
    · exact ⟨a', hget⟩
    · obtain heq | hgt : before'.length - (before.length + 1) - inner.length = 0 ∨
          before.length + inner.length + 1 < before'.length := by omega
      · rw [heq] at hget
        cases hget
      · exact absurd hgt hle
  -- so that it has its match there
  obtain ⟨k, hk⟩ : ∃ k, Matches inner (before'.length - (before.length + 1)) k := by
    by_contra hnone
    have hmem := mem_stack.mpr ⟨hopens, fun k hk => hnone ⟨k, hk⟩⟩
    rw [(balanced_iff_pairing.mp hinner).1] at hmem
    cases hmem
  have hmatch : Matches word before'.length (before.length + 1 + k) := by
    obtain ⟨before₁, a₁, inner₁, b₁, after₁, rfl, hi, rfl, hinner₁⟩ := hk
    refine ⟨before ++ .opens a :: before₁, a₁, inner₁, b₁, after₁ ++ .closes b :: after, ?_, ?_,
      ?_, hinner₁⟩
    · rw [hword]
      simp only [List.append_assoc, List.cons_append]
    · simp only [List.length_append, List.length_cons]
      omega
    · omega
  have hunique := hmatch.unique ⟨before', a', inner', b', after', hword', rfl, rfl, hinner'⟩
  have hklt := hk.lt.2
  omega

end Brackets
