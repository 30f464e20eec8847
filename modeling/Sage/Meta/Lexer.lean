import Sage.Meta.Source

/-!
# Meta — the tokens of a document

The first half of the parser splits the text of a document into words, marks and triple-quoted
prose.  White space and comments stand between the tokens.

* `lexeme` — what the text begins with.
* `scan` — the tokens of a text, or the diagnostic of its first lexical error.
* `scan_spec` — every token is the text at its span, and a diagnostic points into the text.
-/

namespace Sage.Meta

open Text

inductive TokenKind where
  | word (text : String)
  | prose (text : String)
  | mark (text : String)
deriving DecidableEq

structure Token where
  kind : TokenKind
  span : Span
deriving DecidableEq

/-- What a text begins with: something between tokens, a token, or an error. -/
inductive Lexeme where
  | skip (text : List Char)
  | token (kind : TokenKind) (text : List Char)
  | unterminated
  | unexpected (ch : Char)

def quotes : List Char := ['"', '"', '"']

/-- The text before the first three quotes. -/
def beforeQuotes : List Char → Option (List Char)
  | [] => none
  | ch :: rest =>
      if quotes.isPrefixOf (ch :: rest) then some []
      else (beforeQuotes rest).map (ch :: ·)

def isWordStart (ch : Char) : Bool := ch.isAlpha || ch = '_'

def marks : List Char :=
  ['\x7b', '\x7d', '(', ')', ':', ';', '.', '$', '<', '>', ',', '#', '[', ']']

@[grind =] def lexeme (ch : Char) (rest : List Char) : Lexeme :=
  let tail := ch :: rest
  if isWhitespace ch then .skip [ch]
  else if ['/', '/'].isPrefixOf tail then .skip (tail.takeWhile (· ≠ '\n'))
  else if quotes.isPrefixOf tail then
    match beforeQuotes (tail.drop 3) with
    | none => .unterminated
    | some text => .token (.prose (String.ofList text)) (quotes ++ text ++ quotes)
  else if isWordStart ch then
    let text := tail.takeWhile isWordChar
    .token (.word (String.ofList text)) text
  else if [':', ':'].isPrefixOf tail ∨ ['-', '>'].isPrefixOf tail then
    .token (.mark (String.ofList (tail.take 2))) (tail.take 2)
  else if ch ∈ marks then .token (.mark (String.ofList [ch])) [ch]
  else .unexpected ch

/-! ### What the text begins with -/

/-- The text of a token. -/
def TokenKind.written : TokenKind → List Char
  | .word text => text.toList
  | .prose text => quotes ++ text.toList ++ quotes
  | .mark text => text.toList

theorem beforeQuotes_spec {text before : List Char} (h : beforeQuotes text = some before) :
    ∃ after, text = before ++ quotes ++ after := by
  induction text generalizing before with
  | nil => cases h
  | cons ch rest ih =>
      rw [beforeQuotes] at h
      split at h
      · rename_i hquotes
        obtain rfl := Option.some.inj h
        obtain ⟨after, hafter⟩ := List.isPrefixOf_iff_prefix.mp hquotes
        exact ⟨after, hafter.symm⟩
      · obtain ⟨before, hbefore, rfl⟩ := Option.map_eq_some_iff.mp h
        obtain ⟨after, rfl⟩ := ih hbefore
        exact ⟨after, rfl⟩

/-- What is skipped is some text. -/
theorem lexeme_skip {ch : Char} {rest text : List Char} (h : lexeme ch rest = .skip text) :
    text ≠ [] ∧ text <+: ch :: rest := by
  rw [lexeme] at h
  dsimp only at h
  split at h
  · obtain rfl := Lexeme.skip.inj h
    exact ⟨List.cons_ne_nil _ _, rest, rfl⟩
  split at h
  · rename_i hcomment
    obtain rfl := Lexeme.skip.inj h
    refine ⟨?_, List.takeWhile_prefix _⟩
    obtain ⟨after, hafter⟩ := List.isPrefixOf_iff_prefix.mp hcomment
    rw [← hafter]
    exact List.cons_ne_nil _ _
  split at h
  · split at h <;> cases h
  split at h
  · cases h
  split at h
  · cases h
  split at h <;> cases h

/-- A token is some text, and its kind says which. -/
theorem lexeme_token {ch : Char} {rest text : List Char} {kind : TokenKind}
    (h : lexeme ch rest = .token kind text) :
    text ≠ [] ∧ text <+: ch :: rest ∧ kind.written = text := by
  rw [lexeme] at h
  dsimp only at h
  split at h
  · cases h
  split at h
  · cases h
  split at h
  · rename_i hquotes
    split at h
    · cases h
    · rename_i before hbefore
      obtain ⟨rfl, rfl⟩ := Lexeme.token.inj h
      obtain ⟨body, hbody⟩ := List.isPrefixOf_iff_prefix.mp hquotes
      obtain ⟨after, hafter⟩ := beforeQuotes_spec hbefore
      refine ⟨List.cons_ne_nil _ _, ⟨after, ?_⟩, ?_⟩
      · rw [← hbody] at hafter ⊢
        rw [List.append_assoc, List.append_assoc, ← List.append_assoc before, ← hafter]
        rfl
      · rw [TokenKind.written, String.toList_ofList]
  split at h
  · rename_i hword
    obtain ⟨rfl, rfl⟩ := Lexeme.token.inj h
    refine ⟨?_, List.takeWhile_prefix _, by rw [TokenKind.written, String.toList_ofList]⟩
    have hchar : isWordChar ch = true := by
      rw [isWordStart, Bool.or_eq_true] at hword
      rw [isWordChar, Bool.or_eq_true]
      rcases hword with halpha | hunderscore
      · exact .inl (by rw [Char.isAlphanum, halpha, Bool.true_or])
      · exact .inr hunderscore
    rw [List.takeWhile_cons_of_pos hchar]
    exact List.cons_ne_nil _ _
  split at h
  · obtain ⟨rfl, rfl⟩ := Lexeme.token.inj h
    exact ⟨List.cons_ne_nil _ _, List.take_prefix _ _,
      by rw [TokenKind.written, String.toList_ofList]⟩
  split at h
  · obtain ⟨rfl, rfl⟩ := Lexeme.token.inj h
    exact ⟨List.cons_ne_nil _ _, ⟨rest, rfl⟩, by rw [TokenKind.written, String.toList_ofList]⟩
  · cases h

theorem lexeme_unexpected {ch ch' : Char} {rest : List Char}
    (h : lexeme ch rest = .unexpected ch') : ch' = ch := by
  rw [lexeme] at h
  dsimp only at h
  split at h
  · cases h
  split at h
  · cases h
  split at h
  · split at h <;> cases h
  split at h
  · cases h
  split at h
  · cases h
  split at h
  · cases h
  · exact (Lexeme.unexpected.inj h).symm

/-! ### The tokens of a text -/

/-- The tokens of the text from an offset on, in a source of `len` bytes.  `debug` is how a
character is quoted in a message. -/
def scan (debug : Char → String) (file : String) (len : Nat) (offset : Nat) :
    List Char → Except Diagnostic (List Token)
  | [] => .ok []
  | ch :: rest =>
      match _h : lexeme ch rest with
      | .skip text =>
          scan debug file len (offset + byteLength text) ((ch :: rest).drop text.length)
      | .token kind text => do
          let stop := offset + byteLength text
          let tokens ← scan debug file len stop ((ch :: rest).drop text.length)
          return ⟨kind, ⟨offset, stop⟩⟩ :: tokens
      | .unterminated => .error ⟨file, ⟨offset, len⟩, "unterminated triple-quoted prose"⟩
      | .unexpected ch =>
          .error ⟨file, ⟨offset, offset + ch.utf8Size⟩, "unexpected character " ++ debug ch⟩
termination_by text => text.length
decreasing_by
  · have hpos := List.length_pos_iff.mpr (lexeme_skip _h).1
    rw [List.length_drop]
    exact Nat.sub_lt (Nat.succ_pos _) hpos
  · have hpos := List.length_pos_iff.mpr (lexeme_token _h).1
    rw [List.length_drop]
    exact Nat.sub_lt (Nat.succ_pos _) hpos

/-- A span of the text that starts at an offset, between two of its characters. -/
def Span.Within (span : Span) (offset : Nat) (text : List Char) : Prop :=
  ∃ before inner after, text = before ++ inner ++ after ∧
    span = ⟨offset + byteLength before, offset + byteLength before + byteLength inner⟩

/-- The token is the text at its span. -/
def Token.Written (token : Token) (offset : Nat) (text : List Char) : Prop :=
  ∃ before after, text = before ++ token.kind.written ++ after ∧
    token.span = ⟨offset + byteLength before,
      offset + byteLength before + byteLength token.kind.written⟩

theorem Token.Written.within {token : Token} {offset : Nat} {text : List Char}
    (h : token.Written offset text) : token.span.Within offset text := by
  obtain ⟨before, after, htext, hspan⟩ := h
  exact ⟨before, _, after, htext, hspan⟩

theorem Token.Written.shift {token : Token} {offset : Nat} {text rest : List Char}
    (h : token.Written (offset + byteLength text) rest) : token.Written offset (text ++ rest) := by
  obtain ⟨before, after, rfl, hspan⟩ := h
  refine ⟨text ++ before, after, by simp, ?_⟩
  rw [hspan, byteLength_append, Nat.add_assoc]

theorem Span.Within.shift {span : Span} {offset : Nat} {text rest : List Char}
    (h : span.Within (offset + byteLength text) rest) : span.Within offset (text ++ rest) := by
  obtain ⟨before, inner, after, rfl, hspan⟩ := h
  refine ⟨text ++ before, inner, after, by simp, ?_⟩
  rw [hspan, byteLength_append, Nat.add_assoc]

/-- Where the scan of a text gets to. -/
def Scanned (file : String) (offset : Nat) (text : List Char) :
    Except Diagnostic (List Token) → Prop
  | .ok tokens => ∀ token ∈ tokens, token.Written offset text
  | .error d => d.file = file ∧ d.span.Within offset text

theorem Scanned.shift {file : String} {offset : Nat} {text rest : List Char}
    {r : Except Diagnostic (List Token)} (h : Scanned file (offset + byteLength text) rest r) :
    Scanned file offset (text ++ rest) r := by
  cases r with
  | error d => exact ⟨h.1, h.2.shift⟩
  | ok tokens => exact fun token hmem => (h token hmem).shift

/-- Every token is the text at its span, and a diagnostic points into the text. -/
theorem scan_spec (debug : Char → String) (file : String) (offset : Nat) (text : List Char) :
    Scanned file offset text (scan debug file (offset + byteLength text) offset text) := by
  generalize hlen : offset + byteLength text = len
  induction hn : text.length using Nat.strong_induction_on generalizing offset text with
  | _ n ih =>
    cases text with
    | nil =>
        rw [scan]
        exact fun token hmem => absurd hmem List.not_mem_nil
    | cons ch rest =>
        -- the rest of the text behind some first characters
        have hrest (first : List Char) (hne : first ≠ []) (hfirst : first <+: ch :: rest) :
            ∃ after, ch :: rest = first ++ after ∧ (ch :: rest).drop first.length = after ∧
              Scanned file (offset + byteLength first) after
                (scan debug file len (offset + byteLength first) after) := by
          obtain ⟨after, hafter⟩ := hfirst
          refine ⟨after, hafter.symm, by rw [← hafter, List.drop_left], ?_⟩
          refine ih after.length ?_ _ _ ?_ rfl
          · have hpos := List.length_pos_iff.mpr hne
            rw [← hn, ← hafter, List.length_append]
            exact Nat.lt_add_of_pos_left hpos
          · rw [← hlen, ← hafter, byteLength_append, Nat.add_assoc]
        rw [scan]
        split
        · rename_i first h
          obtain ⟨hne, hfirst⟩ := lexeme_skip h
          obtain ⟨after, htext, hdrop, hscanned⟩ := hrest first hne hfirst
          rw [hdrop, htext]
          exact hscanned.shift
        · rename_i kind first h
          obtain ⟨hne, hfirst, hwritten⟩ := lexeme_token h
          obtain ⟨after, htext, hdrop, hscanned⟩ := hrest first hne hfirst
          rw [hdrop, htext]
          dsimp only
          cases htail : scan debug file len (offset + byteLength first) after with
          | error d =>
              rw [htail] at hscanned
              exact hscanned.shift
          | ok tokens =>
              rw [htail] at hscanned
              intro token hmem
              rcases List.mem_cons.mp hmem with rfl | hmem
              · refine ⟨[], after, by rw [hwritten]; rfl, ?_⟩
                rw [hwritten]
                rfl
              · exact (hscanned token hmem).shift
        · refine ⟨rfl, [], ch :: rest, [], by simp, ?_⟩
          rw [← hlen]
          rfl
        · rename_i ch' h
          obtain rfl := lexeme_unexpected h
          exact ⟨rfl, [], [ch'], rest, rfl, rfl⟩

end Sage.Meta
