import Sage.Meta.Grammar

/-!
# Meta — what a parser reads

A parser gets to a result with enough fuel.  It reads tokens that are what the grammar says and
collects the prose among them, or it stops with a diagnostic at a token.

* `Parser.after` — the parser behind some tokens.
* `Reads` — what is proved of each function of the parser, with a rule for each way to combine them.
-/

namespace Sage.Meta

open Nesting

/-! ### Prose in tokens -/

/-- The block that a token of prose is collected as. -/
def ProseBlock.of : Token × List String → Option ProseBlock
  | (⟨.prose text, span⟩, owner) => some ⟨text, ⟨span.start + 3, span.stop - 3⟩, owner⟩
  | _ => none

/-- The prose of tokens that stand in some declarations. -/
@[grind =] def blocks (path : List String) (parts : List Syntax) : List ProseBlock :=
  (owned path parts).filterMap ProseBlock.of

@[simp] theorem blocks_nil (path : List String) : blocks path [] = [] := rfl

@[simp] theorem blocks_append (path : List String) (parts parts' : List Syntax) :
    blocks path (parts ++ parts') = blocks path parts ++ blocks path parts' := by
  rw [blocks, owned_append, List.filterMap_append, blocks, blocks]

theorem blocks_declaration (path : List String) (name : String) (parts : List Syntax) :
    blocks path [.declaration name parts] = blocks (path ++ [name]) parts := by
  rw [blocks, owned, owned_nil, List.append_nil, Part.owned, blocks]

theorem tokens_declaration (name : String) (parts : List Syntax) :
    tokens [Part.declaration name parts] = tokens parts := by
  rw [tokens, tokens_nil, List.append_nil, Part.tokens]

theorem blocks_described {text : String} {parts : List Syntax} (h : Described text parts)
    (path : List String) : ∃ span : Span, tokens parts = [⟨.prose text, span⟩] ∧
      blocks path parts = [⟨text, ⟨span.start + 3, span.stop - 3⟩, path⟩] := by
  obtain ⟨span, rfl⟩ := h
  exact ⟨span, rfl, rfl⟩

namespace Written

variable {texts texts' : List String} {parts parts' : List Syntax}

theorem nil : Written [] [] := ⟨[], rfl, rfl⟩

theorem append (h : Written texts parts) (h' : Written texts' parts') :
    Written (texts ++ texts') (parts ++ parts') := by
  obtain ⟨ts, rfl, hts⟩ := h
  obtain ⟨ts', rfl, hts'⟩ := h'
  exact ⟨ts ++ ts', by rw [List.map_append], by rw [List.map_append, hts, hts', List.map_append]⟩

theorem tokens_length (h : Written texts parts) : (tokens parts).length = texts.length := by
  obtain ⟨ts, rfl, hts⟩ := h
  have hlength := congrArg List.length hts
  rw [List.length_map, List.length_map] at hlength
  rw [tokens_map_token, hlength]

/-- There is no prose among words and marks. -/
theorem blocks_eq (h : Written texts parts) (path : List String) : blocks path parts = [] := by
  obtain ⟨ts, rfl, hts⟩ := h
  rw [blocks, owned_map_token, List.filterMap_eq_nil_iff]
  intro entry hentry
  obtain ⟨t, ht, rfl⟩ := List.mem_map.mp hentry
  have htext : t.text ∈ texts.map some := hts ▸ List.mem_map_of_mem ht
  obtain ⟨kind, span⟩ := t
  cases kind with
  | word text => rfl
  | mark text => rfl
  | prose text =>
      obtain ⟨text', -, hsome⟩ := List.mem_map.mp htext
      cases hsome

end Written

/-! ### The parser behind some tokens -/

namespace Parser

def after (p : Parser) (parts : List Syntax) : Parser :=
  { p with
    cursor := p.cursor + (Nesting.tokens parts).length
    proseBlocks := p.proseBlocks ++ blocks p.owner parts }

@[simp] theorem after_nil (p : Parser) : p.after [] = p := by
  simp [after]

theorem after_append (p : Parser) (parts parts' : List Syntax) :
    p.after (parts ++ parts') = (p.after parts).after parts' := by
  simp [after, tokens_append, Nat.add_assoc]

/-- The diagnostic is at a token, or at the end. -/
def Reports (p : Parser) (d : Diagnostic) : Prop :=
  d.file = p.file ∧ (d.span = ⟨p.len, p.len⟩ ∨ ∃ t ∈ p.tokens, d.span = t.span)

theorem reports_current (p : Parser) (message : String) :
    p.Reports ⟨p.file, p.currentSpan, message⟩ := by
  refine ⟨rfl, ?_⟩
  rw [currentSpan]
  cases ht : p.tokens[p.cursor]? with
  | none => exact .inl rfl
  | some t => exact .inr ⟨t, List.mem_of_getElem? ht, rfl⟩

end Parser

/-- A result of a parser. -/
abbrev Outcome (α : Type) := Option (Except Diagnostic (α × Parser))

def Parse.outcome {α : Type} (f : Parse α) (p : Parser) : Outcome α := f p

section Outcomes

variable {α β : Type} {f : Parse α} {g : α → Parse β} {p : Parser}

theorem outcome_bind : (f >>= g).outcome p = match f.outcome p with
    | none => none
    | some (.error d) => some (.error d)
    | some (.ok (a, p')) => (g a).outcome p' := by
  rw [Parse.outcome, Parse.outcome]
  simp only [bind, StateT.bind, ExceptT.bind, ExceptT.mk, Option.bind]
  cases f p with
  | none => rfl
  | some r => cases r <;> rfl

theorem outcome_pure (a : α) : (pure a : Parse α).outcome p = some (.ok (a, p)) := rfl

theorem outcome_get_bind {g : Parser → Parse β} : (get >>= g).outcome p = (g p).outcome p := rfl

theorem outcome_modify (h : Parser → Parser) :
    (modify h : Parse Unit).outcome p = some (.ok ((), h p)) := rfl

theorem outcome_set (p' : Parser) : (set p' : Parse Unit).outcome p = some (.ok ((), p')) := rfl

end Outcomes

/-! ### Reading -/

/-- From any state with `k` tokens read and fewer than `n` to come, the parser reads tokens that
`R` says, or stops at a token. -/
def Reads {α : Type} (k n : Nat) (f : Parse α) (R : α → List Syntax → Prop) : Prop :=
  ∀ p : Parser, k ≤ p.cursor → p.cursor ≤ p.tokens.length → p.tokens.length < p.cursor + n →
    (∃ d, f.outcome p = some (.error d) ∧ p.Reports d) ∨
      ∃ a parts, f.outcome p = some (.ok (a, p.after parts)) ∧ R a parts ∧
        tokens parts <+: p.tokens.drop p.cursor

namespace Reads

variable {α β : Type} {k k' n n' : Nat} {f : Parse α} {g : α → Parse β}
  {R R' : α → List Syntax → Prop} {Q : β → List Syntax → Prop}

theorem weaken (h : Reads k n f R) (hk : k ≤ k') (hn : n' ≤ n) : Reads k' n' f R :=
  fun p hcursor hle hlt => h p (Nat.le_trans hk hcursor) hle
    (Nat.lt_of_lt_of_le hlt (Nat.add_le_add_left hn _))

theorem mono (h : Reads k n f R) (hR : ∀ a parts, R a parts → R' a parts) : Reads k n f R' := by
  intro p hcursor hle hlt
  refine (h p hcursor hle hlt).imp id ?_
  rintro ⟨a, parts, hrun, hread, hfirst⟩
  exact ⟨a, parts, hrun, hR a parts hread, hfirst⟩

theorem pure {a : α} (h : R a []) : Reads k n (Pure.pure a) R := by
  intro p _ _ _
  exact .inr ⟨a, [], by rw [outcome_pure, Parser.after_nil], h, List.nil_prefix⟩

theorem error (message : String) : Reads k n (Parse.error message) R :=
  fun p _ _ _ => .inl ⟨_, rfl, p.reports_current message⟩

/-- The second parser starts behind what the first one read. -/
theorem bind {P : α → List Syntax → Prop} (hf : Reads k n f P)
    (hg : ∀ a parts, P a parts → Reads (k + (tokens parts).length) (n - (tokens parts).length) (g a)
      fun b parts' => Q b (parts ++ parts')) : Reads k n (f >>= g) Q := by
  intro p hcursor hle hlt
  rcases hf p hcursor hle hlt with ⟨d, hrun, hreports⟩ | ⟨a, parts, hrun, hread, hfirst⟩
  · exact .inl ⟨d, by rw [outcome_bind, hrun], hreports⟩
  · have hlength := hfirst.length_le
    rw [List.length_drop] at hlength
    rcases hg a parts hread (p.after parts) (Nat.add_le_add_right hcursor _)
      (by dsimp only [Parser.after]; omega) (by dsimp only [Parser.after]; omega) with
      ⟨d, hrest, hreports⟩ | ⟨b, parts', hrest, hread', hsecond⟩
    · exact .inl ⟨d, by rw [outcome_bind, hrun]; exact hrest, hreports⟩
    · refine .inr ⟨b, parts ++ parts', ?_, hread', ?_⟩
      · rw [outcome_bind, hrun, Parser.after_append]
        exact hrest
      · obtain ⟨rest, hrest⟩ := hfirst
        have hdrop : p.tokens.drop (p.cursor + (tokens parts).length) = rest := by
          rw [← List.drop_drop, ← hrest, List.drop_left]
        rw [tokens_append, ← hrest]
        exact (List.prefix_append_right_inj _).mpr (hdrop ▸ hsecond)

/-- Reading the state takes no token. -/
theorem get_bind {g : Parser → Parse β} (h : ∀ q, Reads k n (g q) Q) :
    Reads k n (get >>= g) Q :=
  fun p hcursor hle hlt => by
    rw [outcome_get_bind]
    exact h p p hcursor hle hlt

/-- The same tokens, in other declarations. -/
theorem regroup (h : Reads k n f R) (hR : ∀ a parts, R a parts → ∃ parts', R' a parts' ∧
    tokens parts' = tokens parts ∧ ∀ path, blocks path parts' = blocks path parts) :
    Reads k n f R' := by
  intro p hcursor hle hlt
  refine (h p hcursor hle hlt).imp id ?_
  rintro ⟨a, parts, hrun, hread, hfirst⟩
  obtain ⟨parts', hread', htokens, hblocks⟩ := hR a parts hread
  refine ⟨a, parts', ?_, hread', htokens ▸ hfirst⟩
  rw [hrun, Parser.after, Parser.after, htokens, hblocks]

/-- Prose that is read for a declaration stands in it. -/
theorem owned (name : String) (h : Reads k n f R) : Reads k n (Parse.owned name f) fun a parts =>
    ∃ inner, parts = [.declaration name inner] ∧ R a inner := by
  intro p hcursor hle hlt
  have hrun : (Parse.owned name f).outcome p =
      match f.outcome { p with owner := p.owner ++ [name] } with
      | none => none
      | some (.error d) => some (.error d)
      | some (.ok (a, p')) => some (.ok (a, { p' with owner := p'.owner.dropLast })) := by
    rw [Parse.owned, outcome_bind, outcome_modify]
    dsimp only
    rw [outcome_bind]
    cases f.outcome { p with owner := p.owner ++ [name] } with
    | none => rfl
    | some r => cases r <;> rfl
  rw [hrun]
  rcases h { p with owner := p.owner ++ [name] } hcursor hle hlt with
    ⟨d, hbody, hreports⟩ | ⟨a, inner, hbody, hread, hfirst⟩
  · exact .inl ⟨d, by rw [hbody], hreports⟩
  · refine .inr ⟨a, [.declaration name inner], ?_, ⟨inner, rfl, hread⟩, ?_⟩
    · rw [hbody]
      simp [Parser.after, tokens_declaration, blocks_declaration]
    · rw [tokens_declaration]
      exact hfirst

end Reads

/-! ### Single tokens -/

section Tokens

variable {k n : Nat}

/-- A parser that takes the current token, if it is one. -/
theorem reads_token {α : Type} {f : Parse α} {R : α → List Syntax → Prop}
    (h : ∀ p : Parser, (∃ message, f.outcome p = some (.error ⟨p.file, p.currentSpan, message⟩)) ∨
      (∃ a, f.outcome p = some (.ok (a, p)) ∧ R a []) ∨
      ∃ a t, p.tokens[p.cursor]? = some t ∧ f.outcome p = some (.ok (a, p.after [.token t])) ∧
        R a [.token t]) : Reads k n f R := by
  intro p _ _ _
  rcases h p with ⟨message, hrun⟩ | ⟨a, hrun, hread⟩ | ⟨a, t, ht, hrun, hread⟩
  · exact .inl ⟨_, hrun, p.reports_current message⟩
  · exact .inr ⟨a, [], by rw [Parser.after_nil]; exact hrun, hread, List.nil_prefix⟩
  · refine .inr ⟨a, [.token t], hrun, hread, ?_⟩
    obtain ⟨hlt, rfl⟩ := List.getElem?_eq_some_iff.mp ht
    exact ⟨p.tokens.drop (p.cursor + 1), (List.drop_eq_getElem_cons hlt).symm⟩

theorem written_token {t : Token} {text : String} (h : t.text = some text) :
    Written [text] [.token t] := ⟨[t], rfl, by rw [List.map_singleton, h]; rfl⟩

theorem after_text {p : Parser} {t : Token} (ht : t.text.isSome) :
    p.after [.token t] = { p with cursor := p.cursor + 1 } := by
  have hblocks : blocks p.owner [.token t] = [] := by
    obtain ⟨text, htext⟩ := Option.isSome_iff_exists.mp ht
    exact (written_token htext).blocks_eq _
  rw [Parser.after, hblocks, List.append_nil]
  rfl

/-- Whether a token was eaten. -/
def Eaten (text : String) (eaten : Bool) (parts : List Syntax) : Prop :=
  if eaten then Written [text] parts else parts = []

theorem reads_eat (text : String) : Reads k n (Parse.eat text) (Eaten text) := by
  refine reads_token fun p => .inr ?_
  rw [Parse.eat, outcome_get_bind]
  by_cases hat : p.at_ text = true
  · rw [if_pos hat]
    rw [Parser.at_, decide_eq_true_iff] at hat
    obtain ⟨t, ht, htext⟩ := Option.bind_eq_some_iff.mp hat
    refine .inr ⟨true, t, ht, ?_, written_token htext⟩
    rw [after_text (Option.isSome_of_eq_some htext)]
    rfl
  · rw [if_neg hat]
    exact .inl ⟨false, rfl, rfl⟩

theorem reads_expect (text : String) :
    Reads k n (Parse.expect text) fun _ parts => Written [text] parts := by
  refine (reads_eat text).bind fun eaten parts heaten => ?_
  cases eaten with
  | true => exact .pure (by rw [List.append_nil]; exact heaten)
  | false => exact .error _

theorem reads_word : Reads k n Parse.word fun word parts => Written [word] parts := by
  refine reads_token fun p => ?_
  rw [Parse.word, outcome_get_bind]
  split
  · rename_i text span ht
    refine .inr (.inr ⟨text, _, ht, ?_, written_token rfl⟩)
    rw [after_text rfl]
    rfl
  · exact .inl ⟨_, rfl⟩

theorem reads_prose : Reads k n Parse.prose Described := by
  refine reads_token fun p => ?_
  rw [Parse.prose, outcome_get_bind]
  split
  · rename_i text span ht
    exact .inr (.inr ⟨text, _, ht, rfl, span, rfl⟩)
  · exact .inl ⟨_, rfl⟩

theorem reads_optionalProse : Reads k n Parse.optionalProse Describes := by
  refine Reads.get_bind fun q => ?_
  split
  · exact reads_prose.bind fun text parts htext => .pure (by rw [List.append_nil]; exact htext)
  · exact .pure rfl

theorem reads_span : Reads k n Parse.span fun _ parts => parts = [] :=
  Reads.get_bind fun _ => .pure rfl

theorem reads_at (text : String) : Reads k n (Parse.at_ text) fun _ parts => parts = [] :=
  Reads.get_bind fun _ => .pure rfl

/-- Behind a token there is a last one. -/
theorem reads_lastStop (hk : 0 < k) : Reads k n Parse.lastStop fun _ parts => parts = [] := by
  intro p hcursor hle _
  have hlt : p.cursor - 1 < p.tokens.length := by omega
  refine .inr ⟨p.tokens[p.cursor - 1].span.stop, [], ?_, rfl, List.nil_prefix⟩
  rw [Parse.lastStop, outcome_get_bind, List.getElem?_eq_getElem hlt, Parser.after_nil]
  rfl

end Tokens

/-! ### Lists -/

section Lists

variable {α : Type} {item : Parse α} {R : α → List Syntax → Prop}

theorem Reads.zero {k : Nat} {f : Parse α} : Reads k 0 f R :=
  fun _ _ hle hlt => absurd hlt (Nat.not_lt.mpr hle)

theorem reads_commaList {N : Nat} (close : String) (hitem : ∀ k, Reads k N item R)
    (hsome : ∀ a parts, R a parts → 0 < (tokens parts).length) : ∀ {m k n : Nat}, n ≤ m → n ≤ N →
      Reads k n (Parse.commaList close item m)
        (CommaList R (Written [","]) (Written [close])) := by
  intro m
  induction m with
  | zero =>
      intro k n hm _
      obtain rfl := Nat.le_zero.mp hm
      exact .zero
  | succ m ih =>
      intro k n hm hN
      rw [Parse.commaList]
      refine (reads_eat close).bind fun closed c hc => ?_
      cases closed with
      | true =>
          refine .pure ?_
          rw [List.append_nil]
          exact .close hc
      | false =>
          obtain rfl : c = [] := hc
          refine ((hitem k).weaken (Nat.le_add_right _ _) (by simpa using hN)).bind ?_
          intro a b hb
          have hpos := hsome a b hb
          refine (reads_eat close).bind fun closed c hc => ?_
          cases closed with
          | true =>
              refine .pure ?_
              rw [List.append_nil, List.nil_append]
              exact .last hb hc
          | false =>
              obtain rfl : c = [] := hc
              refine (reads_expect ",").bind fun _ c hcomma => ?_
              have hrest :=
                @ih (k + (tokens b).length) (n - (tokens b).length) (by omega) (by omega)
              refine (hrest.weaken ?_ ?_).bind fun as d hd => .pure ?_
              · rw [tokens_nil, List.length_nil]
                omega
              · rw [tokens_nil, List.length_nil]
                omega
              · rw [List.append_nil, List.nil_append, List.nil_append]
                exact .cons hb hcomma hd

theorem reads_block {N : Nat} (close : String) (hitem : ∀ k, Reads k N item R)
    (hsome : ∀ a parts, R a parts → 0 < (tokens parts).length) : ∀ {m k n : Nat}, n ≤ m → n ≤ N →
      Reads k n (Parse.block close item m) (Block R (Written [close])) := by
  intro m
  induction m with
  | zero =>
      intro k n hm _
      obtain rfl := Nat.le_zero.mp hm
      exact .zero
  | succ m ih =>
      intro k n hm hN
      rw [Parse.block]
      refine (reads_eat close).bind fun closed c hc => ?_
      cases closed with
      | true =>
          refine .pure ?_
          rw [List.append_nil]
          exact ⟨[], c, .nil, hc, rfl⟩
      | false =>
          obtain rfl : c = [] := hc
          refine ((hitem k).weaken (Nat.le_add_right _ _) (by simpa using hN)).bind ?_
          intro a b hb
          have hpos := hsome a b hb
          have hrest := @ih (k + (tokens b).length) (n - (tokens b).length) (by omega) (by omega)
          refine (hrest.weaken ?_ ?_).bind fun as e he => .pure ?_
          · rw [tokens_nil, List.length_nil]
            omega
          · rw [tokens_nil, List.length_nil]
            omega
          · obtain ⟨c, d, hitems, hclose, rfl⟩ := he
            exact ⟨b ++ c, d, .cons hb hitems, hclose, by simp⟩

theorem reads_wordsAfter (before : String) : ∀ {m k n : Nat}, n ≤ m →
    Reads k n (Parse.wordsAfter before m) fun words parts =>
      Written (afterMarks before words) parts := by
  intro m
  induction m with
  | zero =>
      intro k n hm
      obtain rfl := Nat.le_zero.mp hm
      exact .zero
  | succ m ih =>
      intro k n hm
      rw [Parse.wordsAfter]
      refine (reads_eat before).bind fun eaten c hc => ?_
      cases eaten with
      | true =>
          have hlength : (tokens c).length = 1 := Written.tokens_length hc
          refine reads_word.bind fun word b hb => ?_
          have hrest := @ih (k + (tokens c).length) (n - (tokens c).length) (by omega)
          refine (hrest.weaken (by omega) (by omega)).bind fun words d hd => .pure ?_
          rw [List.append_nil]
          have hwords : Written ([before] ++ ([word] ++ afterMarks before words)) (c ++ (b ++ d)) :=
            Written.append hc (hb.append hd)
          exact hwords
      | false =>
          obtain rfl : c = [] := hc
          exact .pure Written.nil

end Lists

end Sage.Meta
