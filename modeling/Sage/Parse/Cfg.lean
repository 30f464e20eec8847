import Sage.Library.Text
import Sage.Library.Url

/-!
# Parse — configuration predicates

`evaluate_cfg` of `parse/attrs.rs` with `cfg_value` and `cfg_enabled`: a scanner that splits a
predicate at its first parenthesis and at the commas outside of quotes and parentheses.

* `evaluateCfg` — the scanner, with fuel for the nesting of its calls.
* `Grammar`, `Reads` — predicates of a grammar with their values; `strict`, `plain`, `sloppy`.
* `Exact`, `exact_iff` — the texts on which the scanner and the grammar agree.
-/

namespace Sage.Parse.Cfg

open Text (trim trimStart isWhitespace)
open Url (splitOnce)

/-- What `is_alphanumeric` knows of characters. -/
structure CharClasses where
  alphabetic : Char → Bool
  numeric : Char → Bool
  delimiter : ∀ c ∈ ['(', ')', ',', '"', '=', '\\'], alphabetic c = false ∧ numeric c = false
  blank : ∀ c, isWhitespace c = true → alphabetic c = false ∧ numeric c = false

variable (A : CharClasses) (enabled : List (List Char))

def CharClasses.alphanumeric (c : Char) : Bool := A.alphabetic c || A.numeric c

/-! ### The scanner -/

def identifier (text : List Char) : Bool :=
  !text.isEmpty && text.all fun c => c = '_' || A.alphanumeric c

structure Scan where
  depth : Nat
  quoted : Bool
  escaped : Bool
  /-- The text since the last comma. -/
  piece : List Char
  values : List Bool

def Scan.start : Scan := ⟨0, false, false, [], []⟩

@[grind =] def Scan.step (evaluate : List Char → Option Bool) (s : Scan) (c : Char) : Option Scan :=
  let next := { s with piece := s.piece ++ [c] }
  if s.quoted then
    if s.escaped then some { next with escaped := false }
    else if c = '\\' then some { next with escaped := true }
    else if c = '"' then some { next with quoted := false }
    else some next
  else if c = '"' then some { next with quoted := true }
  else if c = '(' then some { next with depth := s.depth + 1 }
  else if c = ')' then
    if s.depth = 0 then none else some { next with depth := s.depth - 1 }
  else if c = ',' ∧ s.depth = 0 then do
    let value ← evaluate s.piece
    return { s with piece := [], values := s.values ++ [value] }
  else some next

/-- The values of the pieces; the last piece may be blank. -/
def Scan.finish (evaluate : List Char → Option Bool) (s : Scan) : Option (List Bool) :=
  if s.depth ≠ 0 ∨ s.quoted then none
  else if trim s.piece = [] then some s.values
  else do
    let value ← evaluate s.piece
    return s.values ++ [value]

def applyOperator (operator : List Char) (values : List Bool) : Option Bool :=
  if operator = "all".toList then some (values.all id)
  else if operator = "any".toList then some (values.any id)
  else if operator = "not".toList then
    match values with
    | [value] => some !value
    | _ => none
  else none

/-- The option that a text without parentheses names, as it is written in the list of options. -/
def optionKey (text : List Char) : Option (List Char) :=
  match splitOnce '=' text with
  | (key, some value) =>
      let key := trim key
      let value := trim value
      if identifier A key ∧ value.head? = some '"' ∧ value.getLast? = some '"' then
        some (key ++ '=' :: value)
      else none
  | (_, none) => if identifier A text then some text else none

def stripParen (text : List Char) : Option (List Char) :=
  if text.getLast? = some ')' then some text.dropLast else none

@[grind =] def evaluateWithin : Nat → List Char → Option Bool
  | 0, _ => none
  | fuel + 1, text =>
      match splitOnce '(' (trim text) with
      | (operator, some rest) => do
          let rest ← stripParen rest
          let s ← rest.foldlM (Scan.step (evaluateWithin fuel)) .start
          let values ← s.finish (evaluateWithin fuel)
          applyOperator (trim operator) values
      | (text, none) => (optionKey A text).map (enabled.contains ·)

/-- Every call is for a shorter text. -/
def evaluateCfg (text : List Char) : Option Bool :=
  evaluateWithin A enabled (text.length + 1) text

/-- An attribute by the text of its path and of its arguments. -/
structure Attr where
  path : List Char
  arguments : Option (List Char)

def cfgValue (cfgs : Option (List (List Char))) (attr : Attr) : Option Bool := do
  if attr.path ≠ "cfg".toList then none
  let text ← attr.arguments
  match text with
  | '(' :: text => do evaluateCfg A (← cfgs) (← stripParen text)
  | _ => none

def cfgEnabled (cfgs : Option (List (List Char))) (attrs : List Attr) : Bool :=
  attrs.all fun attr => cfgValue A cfgs attr ≠ some false

/-! ### The grammar -/

def Blank (text : List Char) : Prop := ∀ c ∈ text, isWhitespace c = true

/-- What is between the quotes of a string literal. -/
inductive Body : List Char → Prop
  | nil : Body []
  | char {c text} (hc : c ≠ '"' ∧ c ≠ '\\') (h : Body text) : Body (c :: text)
  | escape {c text} (h : Body text) : Body ('\\' :: c :: text)

/-- Text in which every quote and parenthesis closes, with commas only inside of them; or anywhere,
for text that is inside. -/
inductive Balanced : Bool → List Char → Prop
  | nil {inside} : Balanced inside []
  | char {inside c text} (hc : c ∉ ['"', '(', ')', ',']) (h : Balanced inside text) :
      Balanced inside (c :: text)
  | comma {text} (h : Balanced true text) : Balanced true (',' :: text)
  | quoted {inside body text} (hbody : Body body) (h : Balanced inside text) :
      Balanced inside ('"' :: (body ++ '"' :: text))
  | parens {inside inner text} (hinner : Balanced true inner) (h : Balanced inside text) :
      Balanced inside ('(' :: (inner ++ ')' :: text))

/-- The words, the literals and the elements of lists that a grammar allows. -/
structure Grammar where
  word : List Char → Prop
  literal : List Char → Prop
  element : List Char → Prop

def valueCore (word left right literal : List Char) : List Char :=
  word ++ (left ++ '=' :: (right ++ literal))

@[grind =] def listCore (operator left arguments : List Char) : List Char :=
  operator ++ (left ++ '(' :: (arguments ++ [')']))

mutual

/-- A text is a predicate, with a value under the enabled options. -/
inductive Reads (G : Grammar) (enabled : List (List Char)) : List Char → Bool → Prop
  | option {word before after} (hword : G.word word) (hbefore : Blank before)
      (hafter : Blank after) :
      Reads G enabled (before ++ (word ++ after)) (enabled.contains word)
  | value {word literal before after left right} (hword : G.word word)
      (hliteral : G.literal literal) (hbefore : Blank before) (hafter : Blank after)
      (hleft : Blank left) (hright : Blank right) :
      Reads G enabled (before ++ (valueCore word left right literal ++ after))
        (enabled.contains (word ++ '=' :: literal))
  | list {operator before after left arguments values value} (hbefore : Blank before)
      (hafter : Blank after) (hleft : Blank left)
      (harguments : ReadsList G enabled arguments values)
      (hvalue : applyOperator operator values = some value) :
      Reads G enabled (before ++ (listCore operator left arguments ++ after)) value

/-- A list of predicates, with a comma after each but perhaps the last. -/
inductive ReadsList (G : Grammar) (enabled : List (List Char)) : List Char → List Bool → Prop
  | nil {text} (h : Blank text) : ReadsList G enabled text []
  | last {text value} (helement : G.element text) (h : Reads G enabled text value) :
      ReadsList G enabled text [value]
  | cons {text rest value values} (helement : G.element text) (h : Reads G enabled text value)
      (hrest : ReadsList G enabled rest values) :
      ReadsList G enabled (text ++ ',' :: rest) (value :: values)

end

/-- A name of an option: an identifier. -/
def IsName (word : List Char) : Prop :=
  identifier A word = true ∧ word.head?.all (fun c => !A.numeric c) = true ∧ word ≠ ['_']

def IsLiteral (literal : List Char) : Prop := ∃ body, Body body ∧ literal = '"' :: (body ++ ['"'])

/-- The grammar of configuration predicates. -/
def strict : Grammar := ⟨IsName A, IsLiteral, fun _ => True⟩

/-- The grammar without parentheses in its literals. -/
def plain : Grammar := ⟨IsName A, fun literal => IsLiteral literal ∧ '(' ∉ literal, fun _ => True⟩

/-- A grammar whose names may begin with digits, and whose literals are any text from one quote to
another without an opening parenthesis. -/
def sloppy : Grammar where
  word word := identifier A word = true
  literal literal := literal.head? = some '"' ∧ literal.getLast? = some '"' ∧ '(' ∉ literal
  element := Balanced false

/-! ### White space -/

variable {A enabled}

theorem dropWhile_blank {before text : List Char} (hbefore : Blank before)
    (htext : ∀ c, text.head? = some c → isWhitespace c = false) :
    trimStart (before ++ text) = text := by
  rw [trimStart, List.dropWhile_append_of_pos hbefore]
  cases text with
  | nil => rfl
  | cons c text => rw [List.dropWhile_cons_of_neg (by simp [htext c rfl])]

theorem trim_pad {before text after : List Char} (hbefore : Blank before) (hafter : Blank after)
    (hne : text ≠ []) (hhead : ∀ c, text.head? = some c → isWhitespace c = false)
    (hlast : ∀ c, text.getLast? = some c → isWhitespace c = false) :
    trim (before ++ (text ++ after)) = text := by
  have hhead' : ∀ c, (text ++ after).head? = some c → isWhitespace c = false := by
    intro c hc
    refine hhead c ?_
    rwa [List.head?_append_of_ne_nil _ hne] at hc
  have hlast' : ∀ c, text.reverse.head? = some c → isWhitespace c = false := by
    intro c hc
    rw [List.head?_reverse] at hc
    exact hlast c hc
  have hafter' : Blank after.reverse := fun c hc => hafter c (List.mem_reverse.mp hc)
  rw [trim, dropWhile_blank hbefore hhead', List.reverse_append, dropWhile_blank hafter' hlast',
    List.reverse_reverse]

theorem Blank.nil : Blank [] := nofun

theorem trim_blank {text : List Char} (h : Blank text) : trim text = [] := by
  have hstart : trimStart text = [] := by
    have hnil := @dropWhile_blank text [] h nofun
    rwa [List.append_nil] at hnil
  rw [trim, hstart]
  rfl

theorem exists_trimStart (text : List Char) :
    ∃ before, Blank before ∧ text = before ++ trimStart text ∧
      ∀ c, (trimStart text).head? = some c → isWhitespace c = false := by
  refine ⟨text.takeWhile isWhitespace, fun c hc => List.mem_takeWhile_imp hc,
    List.takeWhile_append_dropWhile.symm, fun c hc => ?_⟩
  have hhead := List.head?_dropWhile_not isWhitespace text
  rw [trimStart] at hc
  rw [hc] at hhead
  exact hhead

/-- A text is its trimmed text with white space around it. -/
theorem exists_trim (text : List Char) :
    ∃ before after, Blank before ∧ Blank after ∧ text = before ++ (trim text ++ after) := by
  obtain ⟨before, hbefore, htext, -⟩ := exists_trimStart text
  obtain ⟨after, hafter, hrest, -⟩ := exists_trimStart (trimStart text).reverse
  refine ⟨before, after.reverse, hbefore, fun c hc => hafter c (List.mem_reverse.mp hc), ?_⟩
  have hreverse := congrArg List.reverse hrest
  rw [List.reverse_reverse, List.reverse_append] at hreverse
  rw [trim, ← hreverse]
  exact htext

theorem blank_of_trim {text : List Char} (h : trim text = []) : Blank text := by
  obtain ⟨before, after, hbefore, hafter, htext⟩ := exists_trim text
  rw [h, List.nil_append] at htext
  intro c hc
  rw [htext] at hc
  exact (List.mem_append.mp hc).elim (hbefore c) (hafter c)

theorem not_blank_delimiter {c : Char} (hc : c ∈ ['(', ')', ',', '"', '=', '\\', '_']) :
    isWhitespace c = false := by
  simp only [List.mem_cons, List.not_mem_nil, or_false] at hc
  rcases hc with rfl | rfl | rfl | rfl | rfl | rfl | rfl <;> rfl

theorem Blank.not_mem {text : List Char} (h : Blank text) {c : Char}
    (hc : c ∈ ['(', ')', ',', '"', '=', '\\', '_']) : c ∉ text := by
  intro hmem
  exact Bool.false_ne_true ((not_blank_delimiter hc).symm.trans (h c hmem))

/-! ### Scans -/

variable {evaluate : List Char → Option Bool}

/-- A scan that is not in a literal. -/
def Scan.Plain (s : Scan) : Prop := s.quoted = false ∧ s.escaped = false

/-- A scan with more text in its piece. -/
@[grind =] def Scan.more (s : Scan) (text : List Char) : Scan := { s with piece := s.piece ++ text }

@[simp] theorem Scan.more_nil (s : Scan) : s.more [] = s := by
  rw [more, List.append_nil]

@[simp] theorem Scan.more_more (s : Scan) (text text' : List Char) :
    (s.more text).more text' = s.more (text ++ text') := by
  simp [more]

theorem Scan.Plain.more {s : Scan} (h : s.Plain) (text : List Char) : (s.more text).Plain := h

def Scan.quote (s : Scan) (quoted : Bool) : Scan := { s with quoted := quoted }

@[grind =] def Scan.escape (s : Scan) (escaped : Bool) : Scan := { s with escaped := escaped }

@[grind =] def Scan.nest (s : Scan) (depth : Nat) : Scan := { s with depth := depth }

namespace Scan

variable {s s' : Scan} {c : Char} {text : List Char}

theorem step_char (h : s.Plain) (hc : c ∉ ['"', '(', ')', ',']) :
    s.step evaluate c = some (s.more [c]) := by
  simp only [List.mem_cons, List.not_mem_nil, or_false, not_or] at hc
  simp [step, h.1, hc, more]

theorem step_comma (h : s.Plain) (hdepth : s.depth ≠ 0) :
    s.step evaluate ',' = some (s.more [',']) := by
  simp [step, h.1, hdepth, more]

theorem step_quote (h : s.Plain) :
    s.step evaluate '"' = some ((s.more ['"']).quote true) := by
  simp [step, h.1, more, quote]

theorem step_open (h : s.Plain) :
    s.step evaluate '(' = some ((s.more ['(']).nest (s.depth + 1)) := by
  simp [step, h.1, more, nest]

theorem step_close (h : s.Plain) (hdepth : s.depth ≠ 0) :
    s.step evaluate ')' = some ((s.more [')']).nest (s.depth - 1)) := by
  simp [step, h.1, hdepth, more, nest]

theorem step_separator (h : s.Plain) (hdepth : s.depth = 0) :
    s.step evaluate ',' = (evaluate s.piece).map fun value =>
      { s with piece := [], values := s.values ++ [value] } := by
  cases hvalue : evaluate s.piece <;> simp [step, h.1, hdepth, hvalue]

theorem step_body (h : s.quoted = true) (h' : s.escaped = false) (hc : c ≠ '"' ∧ c ≠ '\\') :
    s.step evaluate c = some (s.more [c]) := by
  simp [step, h, h', hc, more]

theorem step_unquote (h : s.quoted = true) (h' : s.escaped = false) :
    s.step evaluate '"' = some ((s.more ['"']).quote false) := by
  simp [step, h, h', more, quote]

theorem step_escape (h : s.quoted = true) (h' : s.escaped = false) :
    s.step evaluate '\\' = some ((s.more ['\\']).escape true) := by
  simp [step, h, h', more, escape]

theorem step_escaped (h : s.quoted = true) (h' : s.escaped = true) :
    s.step evaluate c = some ((s.more [c]).escape false) := by
  simp [step, h, h', more, escape]

/-- A literal is scanned up to its closing quote. -/
theorem scan_body (hbody : Body text) : ∀ {s : Scan}, s.quoted = true → s.escaped = false →
    text.foldlM (step evaluate) s = some (s.more text) := by
  induction hbody with
  | nil =>
      intro s _ _
      rw [more_nil]
      rfl
  | char hc _ ih =>
      intro s h h'
      rw [List.foldlM_cons, step_body h h' hc, Option.bind_eq_bind, Option.bind_some,
        @ih (s.more _) h h', more_more, List.singleton_append]
  | @escape c text _ ih =>
      intro s h h'
      have hescaped := @step_escaped evaluate ((s.more ['\\']).escape true) c h rfl
      rw [List.foldlM_cons, step_escape h h', Option.bind_eq_bind, Option.bind_some,
        List.foldlM_cons, hescaped, Option.bind_eq_bind, Option.bind_some,
        @ih ((((s.more ['\\']).escape true).more [c]).escape false) h rfl]
      simp [more, escape, h']

theorem nest_eq (s : Scan) : s.nest s.depth = s := rfl

/-- Balanced text is scanned into the piece. -/
theorem scan_balanced {inside : Bool} (hbalanced : Balanced inside text) :
    ∀ {s : Scan}, s.Plain → (inside = true → s.depth ≠ 0) →
    text.foldlM (step evaluate) s = some (s.more text) := by
  induction hbalanced with
  | nil =>
      intro s _ _
      rw [more_nil]
      rfl
  | char hc _ ih =>
      intro s h hdepth
      rw [List.foldlM_cons, step_char h hc, Option.bind_eq_bind, Option.bind_some,
        @ih (s.more _) h hdepth, more_more, List.singleton_append]
  | comma _ ih =>
      intro s h hdepth
      rw [List.foldlM_cons, step_comma h (hdepth rfl), Option.bind_eq_bind, Option.bind_some,
        @ih (s.more _) h hdepth, more_more, List.singleton_append]
  | @quoted inside body text hbody _ ih =>
      intro s h hdepth
      have hscan := @scan_body evaluate body hbody ((s.more ['"']).quote true) rfl h.2
      have hunquote := @step_unquote evaluate (((s.more ['"']).quote true).more body) rfl h.2
      rw [List.foldlM_cons, step_quote h, Option.bind_eq_bind, Option.bind_some,
        List.foldlM_append, hscan, Option.bind_eq_bind, Option.bind_some, List.foldlM_cons,
        hunquote, Option.bind_eq_bind, Option.bind_some,
        @ih ((((s.more ['"']).quote true).more body).more ['"'] |>.quote false) ⟨rfl, h.2⟩ hdepth]
      simp [more, quote, h.1]
  | @parens inside inner text _ _ ihinner ih =>
      intro s h hdepth
      have hscan := @ihinner ((s.more ['(']).nest (s.depth + 1)) h fun _ => Nat.succ_ne_zero _
      have hclose : (((s.more ['(']).nest (s.depth + 1)).more inner).step evaluate ')' =
          some (((((s.more ['(']).nest (s.depth + 1)).more inner).more [')']).nest s.depth) :=
        step_close h (Nat.succ_ne_zero _)
      rw [List.foldlM_cons, step_open h, Option.bind_eq_bind, Option.bind_some,
        List.foldlM_append, hscan, Option.bind_eq_bind, Option.bind_some, List.foldlM_cons,
        hclose, Option.bind_eq_bind, Option.bind_some,
        @ih (((((s.more ['(']).nest (s.depth + 1)).more inner).more [')']).nest s.depth) h hdepth]
      simp [more, nest]

theorem scan_piece (hbalanced : Balanced false text) (h : s.Plain) :
    text.foldlM (step evaluate) s = some (s.more text) :=
  scan_balanced hbalanced h fun hinside => absurd hinside Bool.false_ne_true

/-! ### What a scan has read -/

/-- A literal that closes has a body. -/
theorem body_of_scan : ∀ {text : List Char} {s : Scan}, text.foldlM (step evaluate) s = some s' →
    s.quoted = true → s.escaped = false → s'.quoted = false →
    ∃ body rest, text = body ++ '"' :: rest ∧ Body body ∧
      rest.foldlM (step evaluate) ((s.more (body ++ ['"'])).quote false) = some s'
  | [], s, hscan, h, _, hend => by
      cases hscan
      exact absurd (hend.symm.trans h) Bool.false_ne_true
  | c :: text, s, hscan, h, h', hend => by
      rw [List.foldlM_cons] at hscan
      by_cases hquote : c = '"'
      · subst hquote
        rw [step_unquote h h', Option.bind_eq_bind, Option.bind_some] at hscan
        exact ⟨[], text, rfl, .nil, hscan⟩
      · by_cases hescape : c = '\\'
        · subst hescape
          rw [step_escape h h', Option.bind_eq_bind, Option.bind_some] at hscan
          cases text with
          | nil =>
              cases hscan
              exact absurd (hend.symm.trans h) Bool.false_ne_true
          | cons d text =>
              have hescaped := @step_escaped evaluate ((s.more ['\\']).escape true) d h rfl
              rw [List.foldlM_cons, hescaped, Option.bind_eq_bind, Option.bind_some] at hscan
              obtain ⟨body, rest, rfl, hbody, hrest⟩ := body_of_scan hscan h rfl hend
              refine ⟨'\\' :: d :: body, rest, rfl, .escape hbody, ?_⟩
              simpa [more, escape, quote, h'] using hrest
        · rw [step_body h h' ⟨hquote, hescape⟩, Option.bind_eq_bind, Option.bind_some] at hscan
          obtain ⟨body, rest, rfl, hbody, hrest⟩ := body_of_scan hscan h h' hend
          refine ⟨c :: body, rest, rfl, .char ⟨hquote, hescape⟩ hbody, ?_⟩
          simpa [more, quote] using hrest

/-- A parenthesis that closes has balanced text inside. -/
theorem inner_of_scan {text : List Char} {s : Scan}
    (hscan : text.foldlM (step evaluate) s = some s') (h : s.Plain) (hdepth : s.depth ≠ 0) (hend : s'.quoted = false) (hend' : s'.depth = 0) :
    ∃ inner rest, text = inner ++ ')' :: rest ∧ Balanced true inner ∧
      rest.foldlM (step evaluate) ((s.more (inner ++ [')'])).nest (s.depth - 1)) = some s' := by
  induction hn : text.length using Nat.strong_induction_on generalizing text s with
  | _ n ih =>
      subst hn
      cases text with
      | nil =>
          cases hscan
          exact absurd hend' hdepth
      | cons c text =>
          rw [List.foldlM_cons] at hscan
          by_cases hquote : c = '"'
          · subst hquote
            rw [step_quote h, Option.bind_eq_bind, Option.bind_some] at hscan
            obtain ⟨body, rest, rfl, hbody, hrest⟩ := body_of_scan hscan rfl h.2 hend
            obtain ⟨inner, rest', rfl, hinner, hrest'⟩ := ih _ (by simp; omega) hrest
              ⟨rfl, h.2⟩ hdepth rfl
            refine ⟨'"' :: (body ++ '"' :: inner), rest', by simp, .quoted hbody hinner, ?_⟩
            simpa [more, quote, nest, h.1] using hrest'
          · by_cases hopen : c = '('
            · subst hopen
              rw [step_open h, Option.bind_eq_bind, Option.bind_some] at hscan
              obtain ⟨inner, rest, rfl, hinner, hrest⟩ := ih _ (by simp) hscan h
                (Nat.succ_ne_zero _) rfl
              obtain ⟨inner', rest', rfl, hinner', hrest'⟩ := ih _ (by simp; omega) hrest h
                hdepth rfl
              refine ⟨'(' :: (inner ++ ')' :: inner'), rest', by simp, .parens hinner hinner', ?_⟩
              simpa [more, nest] using hrest'
            · by_cases hclose : c = ')'
              · subst hclose
                rw [step_close h hdepth, Option.bind_eq_bind, Option.bind_some] at hscan
                exact ⟨[], text, rfl, .nil, hscan⟩
              · have hstep : s.step evaluate c = some (s.more [c]) := by
                  by_cases hcomma : c = ','
                  · subst hcomma
                    exact step_comma h hdepth
                  · exact step_char h (by simp [hquote, hopen, hclose, hcomma])
                rw [hstep, Option.bind_eq_bind, Option.bind_some] at hscan
                obtain ⟨inner, rest, rfl, hinner, hrest⟩ := ih _ (by simp) hscan h hdepth rfl
                refine ⟨c :: inner, rest, rfl, ?_, ?_⟩
                · by_cases hcomma : c = ','
                  · subst hcomma
                    exact .comma hinner
                  · exact .char (by simp [hquote, hopen, hclose, hcomma]) hinner
                · simpa [more] using hrest

/-- A scan reads balanced text up to its end or to a comma. -/
theorem piece_of_scan {text : List Char} {s : Scan}
    (hscan : text.foldlM (step evaluate) s = some s') (h : s.Plain) (hdepth : s.depth = 0) (hend : s'.quoted = false) (hend' : s'.depth = 0) :
    ∃ piece, Balanced false piece ∧ ((text = piece ∧ s' = s.more piece) ∨
      ∃ rest value, text = piece ++ ',' :: rest ∧ evaluate (s.piece ++ piece) = some value ∧
        rest.foldlM (step evaluate) { s with piece := [], values := s.values ++ [value] } =
          some s') := by
  induction hn : text.length using Nat.strong_induction_on generalizing text s with
  | _ n ih =>
      subst hn
      cases text with
      | nil =>
          cases hscan
          exact ⟨[], .nil, .inl ⟨rfl, (more_nil s').symm⟩⟩
      | cons c text =>
          -- A piece that begins with balanced text and goes on.
          have hmore : ∀ head rest : List Char, rest.length < (c :: text).length →
              c :: text = head ++ rest →
              (∀ {piece}, Balanced false piece → Balanced false (head ++ piece)) →
              rest.foldlM (step evaluate) (s.more head) = some s' →
              ∃ piece, Balanced false piece ∧ ((c :: text = piece ∧ s' = s.more piece) ∨
                ∃ rest value, c :: text = piece ++ ',' :: rest ∧
                  evaluate (s.piece ++ piece) = some value ∧
                  rest.foldlM (step evaluate)
                    { s with piece := [], values := s.values ++ [value] } = some s') := by
            intro head rest hlt htext hhead hscan'
            obtain ⟨piece, hpiece, hcases⟩ := ih _ hlt hscan' h hdepth rfl
            refine ⟨head ++ piece, hhead hpiece, ?_⟩
            obtain ⟨rfl, rfl⟩ | ⟨rest', value, rfl, hvalue, hrest'⟩ := hcases
            · exact .inl ⟨htext, more_more _ _ _⟩
            · refine .inr ⟨rest', value, by rw [htext, List.append_assoc], ?_, hrest'⟩
              rw [← List.append_assoc]
              exact hvalue
          rw [List.foldlM_cons] at hscan
          by_cases hquote : c = '"'
          · subst hquote
            rw [step_quote h, Option.bind_eq_bind, Option.bind_some] at hscan
            obtain ⟨body, rest, rfl, hbody, hrest⟩ := body_of_scan hscan rfl h.2 hend
            refine hmore ('"' :: (body ++ ['"'])) rest (by simp; omega) (by simp)
              (fun hpiece => ?_) ?_
            · simpa using Balanced.quoted hbody hpiece
            · simpa [more, quote, h.1] using hrest
          · by_cases hopen : c = '('
            · subst hopen
              rw [step_open h, Option.bind_eq_bind, Option.bind_some] at hscan
              obtain ⟨inner, rest, rfl, hinner, hrest⟩ := inner_of_scan hscan h
                (Nat.succ_ne_zero _) hend hend'
              refine hmore ('(' :: (inner ++ [')'])) rest (by simp; omega)
                (by simp) (fun hpiece => ?_) ?_
              · simpa using Balanced.parens hinner hpiece
              · simpa [more, nest] using hrest
            · by_cases hcomma : c = ','
              · subst hcomma
                rw [step_separator h hdepth] at hscan
                obtain ⟨s₁, hs₁, hscan⟩ := Option.bind_eq_some_iff.mp hscan
                obtain ⟨value, hvalue, rfl⟩ := Option.map_eq_some_iff.mp hs₁
                refine ⟨[], .nil, .inr ⟨text, value, rfl, ?_, hscan⟩⟩
                rwa [List.append_nil]
              · have hclose : c ≠ ')' := by
                  rintro rfl
                  simp [step, h.1, hdepth] at hscan
                have hplain : c ∉ ['"', '(', ')', ','] := by simp [hquote, hopen, hclose, hcomma]
                rw [step_char h hplain, Option.bind_eq_bind, Option.bind_some] at hscan
                exact hmore [c] text (by simp) rfl (.char hplain) hscan

end Scan

/-! ### Balanced predicates -/

theorem Balanced.append {inside : Bool} {text text' : List Char} (h : Balanced inside text)
    (h' : Balanced inside text') : Balanced inside (text ++ text') := by
  induction h with
  | nil => exact h'
  | char hc _ ih => exact .char hc (ih h')
  | comma _ ih => exact .comma (ih h')
  | @quoted inside body text hbody _ ih =>
      rw [List.cons_append, List.append_assoc, List.cons_append]
      exact .quoted hbody (ih h')
  | @parens inside inner text hinner _ _ ih =>
      rw [List.cons_append, List.append_assoc, List.cons_append]
      exact .parens hinner (ih h')

theorem Balanced.inside {inside : Bool} {text : List Char} (h : Balanced inside text) :
    Balanced true text := by
  induction h with
  | nil => exact .nil
  | char hc _ ih => exact .char hc ih
  | comma _ ih => exact .comma ih
  | quoted hbody _ ih => exact .quoted hbody ih
  | parens hinner _ _ ih => exact .parens hinner ih

theorem balanced_of_plain {inside : Bool} : ∀ {text : List Char},
    (∀ c ∈ text, c ∉ ['"', '(', ')', ',']) → Balanced inside text
  | [], _ => .nil
  | c :: _, h => .char (h c (List.mem_cons_self ..))
      (balanced_of_plain fun d hd => h d (List.mem_cons_of_mem c hd))

theorem Blank.balanced {inside : Bool} {text : List Char} (h : Blank text) :
    Balanced inside text := by
  refine balanced_of_plain fun c hc hdelimiter => ?_
  refine h.not_mem ?_ hc
  revert hdelimiter
  simp only [List.mem_cons, List.not_mem_nil, or_false]
  tauto

theorem identifier_char {word : List Char} (h : identifier A word = true) {c : Char}
    (hc : c ∈ word) : c = '_' ∨ A.alphanumeric c = true := by
  simp only [identifier, Bool.and_eq_true, List.all_eq_true, Bool.or_eq_true,
    decide_eq_true_eq] at h
  exact h.2 c hc

theorem identifier_ne_nil {word : List Char} (h : identifier A word = true) : word ≠ [] := by
  rintro rfl
  cases h

theorem identifier_not_mem {word : List Char} (h : identifier A word = true) {c : Char}
    (hc : c ∈ ['(', ')', ',', '"', '=', '\\']) : c ∉ word := by
  intro hmem
  obtain rfl | halphanumeric := identifier_char h hmem
  · revert hc
    decide
  · obtain ⟨halpha, hnum⟩ := A.delimiter c hc
    rw [CharClasses.alphanumeric, halpha, hnum] at halphanumeric
    cases halphanumeric

theorem identifier_not_blank {word : List Char} (h : identifier A word = true) {c : Char}
    (hc : c ∈ word) : isWhitespace c = false := by
  obtain rfl | halphanumeric := identifier_char h hc
  · decide
  · refine Bool.eq_false_iff.mpr fun hblank => ?_
    obtain ⟨halpha, hnum⟩ := A.blank c hblank
    rw [CharClasses.alphanumeric, halpha, hnum] at halphanumeric
    cases halphanumeric

theorem identifier_balanced {inside : Bool} {word : List Char} (h : identifier A word = true) :
    Balanced inside word := by
  refine balanced_of_plain fun c hc hdelimiter => ?_
  refine identifier_not_mem h ?_ hc
  revert hdelimiter
  simp only [List.mem_cons, List.not_mem_nil, or_false]
  tauto

theorem operator_cases {operator : List Char} {values : List Bool} {value : Bool}
    (h : applyOperator operator values = some value) :
    operator ∈ ["all".toList, "any".toList, "not".toList] := by
  unfold applyOperator at h
  split at h
  · simp_all
  · split at h
    · simp_all
    · split at h
      · simp_all
      · cases h

theorem operator_plain {operator : List Char}
    (h : operator ∈ ["all".toList, "any".toList, "not".toList]) {c : Char} (hc : c ∈ operator) :
    isWhitespace c = false ∧ c ∉ ['"', '(', ')', ','] := by
  simp only [List.mem_cons, List.not_mem_nil, or_false] at h
  rcases h with rfl | rfl | rfl <;> simp only [String.reduceToList, List.mem_cons,
    List.not_mem_nil, or_false] at hc <;> rcases hc with rfl | rfl | rfl <;> decide

mutual

/-- In a predicate every quote and parenthesis closes. -/
theorem Reads.balanced {text : List Char} {value : Bool} :
    Reads (strict A) enabled text value → Balanced false text
  | .option hword hbefore hafter =>
      hbefore.balanced.append ((identifier_balanced hword.1).append hafter.balanced)
  | .value hword ⟨body, hbody, hliteral⟩ hbefore hafter hleft hright => by
      subst hliteral
      refine hbefore.balanced.append (.append ?_ hafter.balanced)
      refine (identifier_balanced hword.1).append (hleft.balanced.append (.char (by decide) ?_))
      exact hright.balanced.append (.quoted hbody .nil)
  | .list hbefore hafter hleft harguments hvalue => by
      refine hbefore.balanced.append (.append ?_ hafter.balanced)
      refine (balanced_of_plain fun c hc => (operator_plain (operator_cases hvalue) hc).2).append ?_
      exact hleft.balanced.append (.parens harguments.balanced .nil)

theorem ReadsList.balanced {text : List Char} {values : List Bool} :
    ReadsList (strict A) enabled text values → Balanced true text
  | .nil h => h.balanced
  | .last _ h => h.balanced.inside
  | .cons _ h hrest => h.balanced.inside.append (.comma hrest.balanced)

end

/-! ### Evaluation of predicates -/

theorem splitOnce_of_not_mem {c : Char} {text : List Char} (h : c ∉ text) :
    splitOnce c text = (text, none) := by
  have hdrop : text.dropWhile (fun d => decide (d ≠ c)) = [] := by
    refine List.dropWhile_eq_nil_iff.mpr fun d hd => decide_eq_true fun heq => h (heq ▸ hd)
  rw [splitOnce, hdrop]

theorem stripParen_append (text : List Char) : stripParen (text ++ [')']) = some text := by
  simp [stripParen]

theorem trim_identifier {word before after : List Char} (h : identifier A word = true)
    (hbefore : Blank before) (hafter : Blank after) : trim (before ++ (word ++ after)) = word :=
  trim_pad hbefore hafter (identifier_ne_nil h)
    (fun _ hc => identifier_not_blank h (List.mem_of_head? hc))
    (fun _ hc => identifier_not_blank h (List.mem_of_getLast? hc))

structure Quoted (literal : List Char) : Prop where
  head : literal.head? = some '"'
  last : literal.getLast? = some '"'

theorem Quoted.ne_nil {literal : List Char} (h : Quoted literal) : literal ≠ [] := by
  rintro rfl
  cases h.head

theorem Quoted.trim {literal right : List Char} (h : Quoted literal) (hright : Blank right) :
    trim (right ++ literal) = literal := by
  have hpad := trim_pad hright .nil h.ne_nil
    (fun c hc => by
      rw [h.head, Option.some.injEq] at hc
      exact hc ▸ not_blank_delimiter (by decide))
    (fun c hc => by
      rw [h.last, Option.some.injEq] at hc
      exact hc ▸ not_blank_delimiter (by decide))
  rwa [List.append_nil] at hpad

variable {word left right literal : List Char}

theorem Quoted.getLast_valueCore (h : Quoted literal) :
    (valueCore word left right literal).getLast? = some '"' := by
  have hne : right ++ literal ≠ [] := List.append_ne_nil_of_right_ne_nil _ h.ne_nil
  rw [valueCore, List.getLast?_append_of_ne_nil _ (by simp), List.getLast?_append_of_ne_nil _
    (by simp), List.getLast?_cons_of_ne_nil hne, List.getLast?_append_of_ne_nil _ h.ne_nil, h.last]

theorem head_identifier_append {c : Char} {rest : List Char} (hword : identifier A word = true)
    (hc : (word ++ rest).head? = some c) : isWhitespace c = false := by
  rw [List.head?_append_of_ne_nil _ (identifier_ne_nil hword)] at hc
  exact identifier_not_blank hword (List.mem_of_head? hc)

theorem trim_valueCore {before after : List Char} (hword : identifier A word = true)
    (hliteral : Quoted literal) (hbefore : Blank before) (hafter : Blank after) :
    trim (before ++ (valueCore word left right literal ++ after)) =
      valueCore word left right literal := by
  refine trim_pad hbefore hafter ?_ ?_ fun c hc => ?_
  · exact List.append_ne_nil_of_left_ne_nil (identifier_ne_nil hword) _
  · exact fun c hc => head_identifier_append hword hc
  · rw [hliteral.getLast_valueCore, Option.some.injEq] at hc
    exact hc ▸ not_blank_delimiter (by decide)

theorem optionKey_word (hword : identifier A word = true) : optionKey A word = some word := by
  rw [optionKey, splitOnce_of_not_mem (identifier_not_mem hword (by decide))]
  exact if_pos hword

theorem optionKey_value (hword : identifier A word = true) (hliteral : Quoted literal)
    (hleft : Blank left) (hright : Blank right) :
    optionKey A (valueCore word left right literal) = some (word ++ '=' :: literal) := by
  have hequals : '=' ∉ word ++ left := by
    rw [List.mem_append, not_or]
    exact ⟨identifier_not_mem hword (by decide), hleft.not_mem (by decide)⟩
  have htrim : trim (word ++ left) = word := trim_identifier hword .nil hleft
  rw [optionKey, valueCore, ← List.append_assoc, Url.splitOnce_append hequals]
  simp only [htrim, hliteral.trim hright]
  exact if_pos ⟨hword, hliteral.head, hliteral.last⟩

theorem evaluate_leaf {fuel : Nat} {text key : List Char} (hparen : '(' ∉ trim text)
    (hkey : optionKey A (trim text) = some key) :
    evaluateWithin A enabled (fuel + 1) text = some (enabled.contains key) := by
  rw [evaluateWithin, splitOnce_of_not_mem hparen]
  simp only [hkey, Option.map_some]

/-- Behind a parenthesis in a literal comes its closing quote. -/
theorem evaluate_paren {fuel : Nat} {text : List Char} (hparen : '(' ∈ trim text)
    (hlast : (trim text).getLast? = some '"') :
    evaluateWithin A enabled (fuel + 1) text = none := by
  obtain ⟨before, rest, htext, hbefore⟩ := List.eq_append_cons_of_mem hparen
  have hstrip : stripParen rest = none := by
    rw [htext, List.getLast?_append_of_ne_nil _ (by simp)] at hlast
    unfold stripParen
    refine if_neg fun hclose => ?_
    have hne : rest ≠ [] := by
      rintro rfl
      cases hclose
    rw [List.getLast?_cons_of_ne_nil hne, hclose] at hlast
    simp at hlast
  rw [evaluateWithin, htext, Url.splitOnce_append hbefore]
  simp only [hstrip]
  rfl

/-- The grammar without parentheses in its literals. -/
def Grammar.bare (G : Grammar) : Grammar :=
  { G with literal := fun literal => G.literal literal ∧ '(' ∉ literal }

/-- What the scanner needs of a grammar. -/
structure Grammar.Fits (G : Grammar) (A : CharClasses) (enabled : List (List Char)) : Prop where
  word : ∀ {word}, G.word word → identifier A word = true
  literal : ∀ {literal}, G.literal literal → Quoted literal
  balanced : ∀ {text value}, G.element text → Reads G enabled text value → Balanced false text

/-- A result is the value of a predicate of the bare grammar, unless a literal has a parenthesis. -/
def Outcome {α : Type} (G : Grammar) (result : Option α) (value : α) (reads : Prop) : Prop :=
  (result = some value ∧ reads) ∨ (result = none ∧ ∃ literal, G.literal literal ∧ '(' ∈ literal)

variable {G : Grammar}

theorem trim_operator {operator before after rest : List Char}
    (h : operator ∈ ["all".toList, "any".toList, "not".toList]) (hbefore : Blank before)
    (hafter : Blank after) (hrest : rest = [] ∨ rest.getLast? = some ')') :
    trim (before ++ ((operator ++ rest) ++ after)) = operator ++ rest := by
  have hne : operator ≠ [] := by
    rintro rfl
    revert h
    decide
  refine trim_pad hbefore hafter (List.append_ne_nil_of_left_ne_nil hne _) ?_ fun c hc => ?_
  · intro c hc
    rw [List.head?_append_of_ne_nil _ hne] at hc
    exact (operator_plain h (List.mem_of_head? hc)).1
  · obtain rfl | hrest := hrest
    · rw [List.append_nil] at hc
      exact (operator_plain h (List.mem_of_getLast? hc)).1
    · have hne' : rest ≠ [] := by
        rintro rfl
        cases hrest
      rw [List.getLast?_append_of_ne_nil _ hne', hrest, Option.some.injEq] at hc
      exact hc ▸ not_blank_delimiter (by decide)

theorem evaluate_list {fuel : Nat} {operator before after left arguments : List Char}
    (h : operator ∈ ["all".toList, "any".toList, "not".toList]) (hbefore : Blank before)
    (hafter : Blank after) (hleft : Blank left) :
    evaluateWithin A enabled (fuel + 1) (before ++ (listCore operator left arguments ++ after)) =
      ((arguments.foldlM (Scan.step (evaluateWithin A enabled fuel)) .start).bind
        (Scan.finish (evaluateWithin A enabled fuel))).bind (applyOperator operator) := by
  have hlast : (left ++ '(' :: (arguments ++ [')'])).getLast? = some ')' := by
    rw [List.getLast?_append_of_ne_nil _ (by simp), List.getLast?_cons_of_ne_nil (by simp)]
    simp
  have hparen : '(' ∉ operator ++ left := by
    rw [List.mem_append, not_or]
    refine ⟨fun hmem => (operator_plain h hmem).2 (by decide), hleft.not_mem (by decide)⟩
  have hoperator : trim (operator ++ left) = operator := by
    have htrim := trim_operator h .nil hleft (.inl rfl)
    simpa using htrim
  rw [evaluateWithin, listCore, trim_operator h hbefore hafter (.inr hlast), ← List.append_assoc,
    Url.splitOnce_append hparen]
  simp only [stripParen_append, hoperator, Option.bind_eq_bind, Option.bind_some,
    Option.bind_assoc]

theorem Reads.trim_ne_nil (hG : G.Fits A enabled) {text : List Char} {value : Bool}
    (h : Reads G enabled text value) : trim text ≠ [] := by
  cases h with
  | option hword hbefore hafter =>
      rw [trim_identifier (hG.word hword) hbefore hafter]
      exact identifier_ne_nil (hG.word hword)
  | value hword hliteral hbefore hafter hleft hright =>
      rw [trim_valueCore (hG.word hword) (hG.literal hliteral) hbefore hafter]
      exact List.append_ne_nil_of_left_ne_nil (identifier_ne_nil (hG.word hword)) _
  | @list operator before after left arguments values _ hbefore hafter hleft harguments hvalue =>
      have hlast : (left ++ '(' :: (arguments ++ [')'])).getLast? = some ')' := by
        rw [List.getLast?_append_of_ne_nil _ (by simp), List.getLast?_cons_of_ne_nil (by simp)]
        simp
      rw [listCore, trim_operator (operator_cases hvalue) hbefore hafter (.inr hlast)]
      simp

/-- An early failure is the result. -/
theorem Outcome.bind_none {α β : Type} {result : Option α} {value : β} {reads : Prop}
    {f : α → Option β} (hnone : result = none) (h : ∃ literal, G.literal literal ∧ '(' ∈ literal) :
    Outcome G (result.bind f) value reads := by
  refine .inr ⟨?_, h⟩
  rw [hnone]
  rfl

mutual

/-- The scanner gives a predicate its value, unless a literal in it has a parenthesis. -/
theorem Reads.evaluate (hG : G.Fits A enabled) {text : List Char} {value : Bool} :
    Reads G enabled text value → ∀ fuel, text.length < fuel →
    Outcome G (evaluateWithin A enabled fuel text) value (Reads G.bare enabled text value)
  | _, 0, hlt => absurd hlt (Nat.not_lt_zero _)
  | .option hword hbefore hafter, fuel + 1, _ => by
      have hidentifier := hG.word hword
      have htrim := trim_identifier hidentifier hbefore hafter
      refine .inl ⟨evaluate_leaf ?_ ?_, .option hword hbefore hafter⟩
      · rw [htrim]
        exact identifier_not_mem hidentifier (by decide)
      · rw [htrim]
        exact optionKey_word hidentifier
  | @Reads.value _ _ word literal before after left right hword hliteral hbefore hafter hleft
      hright, fuel + 1, _ => by
      have hidentifier := hG.word hword
      have hquoted := hG.literal hliteral
      have htrim : trim (before ++ (valueCore word left right literal ++ after)) =
          valueCore word left right literal := trim_valueCore hidentifier hquoted hbefore hafter
      by_cases hparen : '(' ∈ literal
      · refine .inr ⟨evaluate_paren ?_ ?_, literal, hliteral, hparen⟩
        · rw [htrim, valueCore]
          simp [hparen]
        · rw [htrim]
          exact hquoted.getLast_valueCore
      · refine .inl ⟨evaluate_leaf ?_ ?_,
          .value hword ⟨hliteral, hparen⟩ hbefore hafter hleft hright⟩
        · have hword' := identifier_not_mem hidentifier (show '(' ∈ _ by decide)
          have hleft' := hleft.not_mem (show '(' ∈ _ by decide)
          have hright' := hright.not_mem (show '(' ∈ _ by decide)
          rw [htrim, valueCore]
          simp [hparen, hword', hleft', hright']
        · rw [htrim]
          exact optionKey_value hidentifier hquoted hleft hright
  | @Reads.list _ _ operator before after left arguments values _ hbefore hafter hleft harguments
      hvalue, fuel + 1, hlt => by
      have hlength : arguments.length < fuel := by
        simp only [listCore, List.length_append, List.length_cons] at hlt
        omega
      rw [evaluate_list (operator_cases hvalue) hbefore hafter hleft]
      obtain ⟨hscan, hreads⟩ | ⟨hnone, hliteral⟩ :=
        harguments.evaluate hG fuel hlength .start ⟨rfl, rfl⟩ rfl rfl
      · refine .inl ⟨?_, .list hbefore hafter hleft hreads hvalue⟩
        rw [hscan, Option.bind_some]
        exact hvalue
      · exact .bind_none hnone hliteral

theorem ReadsList.evaluate (hG : G.Fits A enabled) {text : List Char} {values : List Bool} :
    ReadsList G enabled text values → ∀ fuel, text.length < fuel → ∀ s : Scan, s.Plain →
    s.depth = 0 → s.piece = [] →
    Outcome G ((text.foldlM (Scan.step (evaluateWithin A enabled fuel)) s).bind
        (Scan.finish (evaluateWithin A enabled fuel))) (s.values ++ values)
      (ReadsList G.bare enabled text values)
  | .nil hblank, fuel, _, s, hplain, hdepth, hpiece => by
      have htrim : trim (s.more text).piece = [] := by
        rw [Scan.more, hpiece]
        exact trim_blank hblank
      refine .inl ⟨?_, .nil hblank⟩
      rw [Scan.scan_piece hblank.balanced hplain, Option.bind_some, Scan.finish,
        if_neg (by simp [Scan.more, hdepth, hplain.1]), if_pos htrim, List.append_nil]
      rfl
  | @ReadsList.last _ _ _ value helement h, fuel, hlt, s, hplain, hdepth, hpiece => by
      have hbalanced := hG.balanced helement h
      have htext : (s.more text).piece = text := by
        rw [Scan.more, hpiece]
        rfl
      have hfinish : (s.more text).finish (evaluateWithin A enabled fuel) =
          (evaluateWithin A enabled fuel text).map fun value => s.values ++ [value] := by
        rw [Scan.finish, if_neg (by simp [Scan.more, hdepth, hplain.1]), htext,
          if_neg (h.trim_ne_nil hG)]
        cases evaluateWithin A enabled fuel text <;> rfl
      rw [Scan.scan_piece hbalanced hplain, Option.bind_some, hfinish]
      obtain ⟨hvalue, hreads⟩ | ⟨hnone, hliteral⟩ := h.evaluate hG fuel hlt
      · exact .inl ⟨by rw [hvalue, Option.map_some], .last helement hreads⟩
      · exact .inr ⟨by rw [hnone, Option.map_none], hliteral⟩
  | @ReadsList.cons _ _ text rest value values helement h hrest, fuel, hlt, s, hplain, hdepth,
      hpiece => by
      have hbalanced := hG.balanced helement h
      rw [List.length_append, List.length_cons] at hlt
      have hstep := @Scan.step_separator (evaluateWithin A enabled fuel) (s.more text) hplain hdepth
      have htext : (s.more text).piece = text := by
        rw [Scan.more, hpiece]
        rfl
      rw [htext] at hstep
      rw [List.foldlM_append, Scan.scan_piece hbalanced hplain, Option.bind_eq_bind,
        Option.bind_some, List.foldlM_cons, hstep]
      obtain ⟨hvalue, hreads⟩ | ⟨hnone, hliteral⟩ := h.evaluate hG fuel (by omega)
      · rw [hvalue, Option.map_some, Option.bind_eq_bind, Option.bind_some]
        obtain ⟨hscan, hreads'⟩ | ⟨hnone, hliteral⟩ := hrest.evaluate hG fuel (by omega)
          { s.more text with piece := [], values := s.values ++ [value] } hplain hdepth rfl
        · refine .inl ⟨hscan.trans ?_, .cons helement hreads hreads'⟩
          rw [List.append_assoc]
          rfl
        · exact .inr ⟨hnone, hliteral⟩
      · rw [hnone]
        exact .bind_none rfl hliteral

end

/-! ### What has a value -/

theorem splitOnce_some {c : Char} {text before rest : List Char}
    (h : splitOnce c text = (before, some rest)) : text = before ++ c :: rest := by
  rw [splitOnce] at h
  have hhead := List.head?_dropWhile_not (fun d => decide (d ≠ c)) text
  have happend := List.takeWhile_append_dropWhile (p := fun d => decide (d ≠ c)) (l := text)
  split at h
  · cases h
  · next d rest' hdrop =>
    cases h
    rw [hdrop] at hhead happend
    have hd : d = c := by simpa using hhead
    subst hd
    exact happend.symm

theorem splitOnce_none {c : Char} {text before : List Char}
    (h : splitOnce c text = (before, none)) : before = text ∧ c ∉ text := by
  have hfst := Url.splitOnce_fst c text
  rw [h] at hfst
  rw [splitOnce] at h
  split at h
  · cases h
    exact ⟨rfl, hfst⟩
  · cases h

theorem stripParen_some {text stripped : List Char} (h : stripParen text = some stripped) :
    text = stripped ++ [')'] := by
  unfold stripParen at h
  split at h
  · next hlast =>
    cases h
    obtain ⟨before, rfl⟩ := List.getLast?_eq_some_iff.mp hlast
    rw [List.dropLast_concat]
  · cases h

theorem Blank.append {text text' : List Char} (h : Blank text) (h' : Blank text') :
    Blank (text ++ text') :=
  fun c hc => (List.mem_append.mp hc).elim (h c) (h' c)

/-- The pieces of a scan are elements of the sloppy grammar. -/
theorem readsList_of_scan {s' : Scan} {result : List Bool}
    (hevaluate : ∀ text value, evaluate text = some value → Reads (sloppy A) enabled text value)
    (hfinish : s'.finish evaluate = some result) {text : List Char} {s : Scan}
    (hscan : text.foldlM (Scan.step evaluate) s = some s') (hplain : s.Plain) (hdepth : s.depth = 0)
    (hpiece : s.piece = []) :
    ∃ values, result = s.values ++ values ∧ ReadsList (sloppy A) enabled text values := by
  have hend : s'.depth = 0 ∧ s'.quoted = false := by
    unfold Scan.finish at hfinish
    split at hfinish
    · cases hfinish
    · next hopen => simpa using hopen
  induction hn : text.length using Nat.strong_induction_on generalizing text s with
  | _ n ih =>
      subst hn
      obtain ⟨piece, hbalanced, ⟨rfl, rfl⟩ | ⟨rest, value, rfl, hvalue, hrest⟩⟩ :=
        Scan.piece_of_scan hscan hplain hdepth hend.2 hend.1
      · have htext : (s.more text).piece = text := by
          rw [Scan.more, hpiece]
          rfl
        rw [Scan.finish, if_neg (by simp [hend]), htext] at hfinish
        split at hfinish
        · next htrim =>
          cases hfinish
          exact ⟨[], (List.append_nil _).symm, .nil (blank_of_trim htrim)⟩
        · obtain ⟨value, hvalue, hresult⟩ := Option.bind_eq_some_iff.mp hfinish
          cases hresult
          exact ⟨[value], rfl, .last hbalanced (hevaluate text value hvalue)⟩
      · rw [hpiece] at hvalue
        obtain ⟨values, hresult, hreads⟩ :=
          ih rest.length (by simp; omega) hrest hplain hdepth rfl rfl
        refine ⟨value :: values, ?_, .cons hbalanced (hevaluate piece value hvalue) hreads⟩
        rw [hresult, List.append_assoc]
        rfl

theorem reads_of_optionKey {text key : List Char} (hkey : optionKey A text = some key)
    (hparen : '(' ∉ text) {before after : List Char} (hbefore : Blank before)
    (hafter : Blank after) :
    Reads (sloppy A) enabled (before ++ (text ++ after)) (enabled.contains key) := by
  unfold optionKey at hkey
  split at hkey
  · next name value hsplit =>
    have htext := splitOnce_some hsplit
    obtain ⟨a, left, ha, hleft, hname⟩ := exists_trim name
    obtain ⟨right, d, hright, hd, hvalue⟩ := exists_trim value
    simp only at hkey
    split at hkey
    · next hcases =>
      cases hkey
      obtain ⟨hword, hhead, hlast⟩ := hcases
      have hliteral : '(' ∉ trim value := fun hmem => hparen (by
        rw [htext, hvalue]
        simp [hmem])
      have hreads : Reads (sloppy A) enabled
          ((before ++ a) ++ (valueCore (trim name) left right (trim value) ++ (d ++ after)))
          (enabled.contains (trim name ++ '=' :: trim value)) :=
        .value hword ⟨hhead, hlast, hliteral⟩ (hbefore.append ha) (hd.append hafter) hleft hright
      have heq : before ++ (text ++ after) =
          (before ++ a) ++ (valueCore (trim name) left right (trim value) ++ (d ++ after)) := by
        conv_lhs => rw [htext, hname, hvalue]
        simp [valueCore]
      rw [heq]
      exact hreads
    · cases hkey
  · split at hkey
    · next hword =>
      cases hkey
      exact .option hword hbefore hafter
    · cases hkey

/-- What the scanner gives a value is a predicate of the sloppy grammar. -/
theorem reads_of_evaluate : ∀ (fuel : Nat) (text : List Char) (value : Bool),
    evaluateWithin A enabled fuel text = some value → Reads (sloppy A) enabled text value
  | 0, _, _, h => by cases h
  | fuel + 1, text, value, h => by
      obtain ⟨before, after, hbefore, hafter, htext⟩ := exists_trim text
      rw [evaluateWithin] at h
      split at h
      · next operator rest hsplit =>
        obtain ⟨arguments, harguments, h⟩ := Option.bind_eq_some_iff.mp h
        obtain ⟨s, hscan, h⟩ := Option.bind_eq_some_iff.mp h
        obtain ⟨result, hfinish, hvalue⟩ := Option.bind_eq_some_iff.mp h
        obtain ⟨values, rfl, hreads⟩ := readsList_of_scan (reads_of_evaluate fuel) hfinish hscan
          ⟨rfl, rfl⟩ rfl rfl
        obtain ⟨a, left, ha, hleft, hoperator⟩ := exists_trim operator
        have heq : text = (before ++ a) ++ (listCore (trim operator) left arguments ++ after) := by
          rw [htext, splitOnce_some hsplit, stripParen_some harguments]
          conv_lhs => rw [hoperator]
          simp [listCore]
        rw [heq]
        exact .list (hbefore.append ha) hafter hleft hreads hvalue
      · next core hsplit =>
        obtain ⟨rfl, hparen⟩ := splitOnce_none hsplit
        obtain ⟨key, hkey, rfl⟩ := Option.map_eq_some_iff.mp h
        rw [htext]
        exact reads_of_optionKey hkey hparen hbefore hafter

/-! ### Exactness -/

theorem IsLiteral.quoted {literal : List Char} (h : IsLiteral literal) : Quoted literal := by
  obtain ⟨body, -, rfl⟩ := h
  refine ⟨rfl, ?_⟩
  rw [← List.cons_append, List.getLast?_concat]

theorem fits_strict : (strict A).Fits A enabled where
  word h := h.1
  literal h := h.quoted
  balanced _ h := h.balanced

theorem fits_sloppy : (sloppy A).Fits A enabled where
  word h := h
  literal h := ⟨h.1, h.2.1⟩
  balanced h _ := h

/-- The scanner gives a text exactly the value that the grammar gives it, or none. -/
def Exact (A : CharClasses) (enabled : List (List Char)) (text : List Char) : Prop :=
  ∀ value, evaluateCfg A enabled text = some value ↔ Reads (strict A) enabled text value

theorem evaluateCfg_strict {text : List Char} {value : Bool}
    (h : Reads (strict A) enabled text value) :
    Outcome (strict A) (evaluateCfg A enabled text) value (Reads (plain A) enabled text value) :=
  h.evaluate fits_strict _ (Nat.lt_succ_self _)

theorem evaluateCfg_sloppy {text : List Char} {value : Bool}
    (h : Reads (sloppy A) enabled text value) : evaluateCfg A enabled text = some value := by
  obtain ⟨hvalue, -⟩ | ⟨-, literal, hliteral, hparen⟩ :=
    h.evaluate fits_sloppy _ (Nat.lt_succ_self _)
  · exact hvalue
  · exact absurd hparen hliteral.2.2

mutual

theorem Reads.of_plain {text : List Char} {value : Bool} :
    Reads (plain A) enabled text value → Reads (strict A) enabled text value
  | .option hword hbefore hafter => .option hword hbefore hafter
  | .value hword hliteral hbefore hafter hleft hright =>
      .value hword hliteral.1 hbefore hafter hleft hright
  | .list hbefore hafter hleft harguments hvalue =>
      .list hbefore hafter hleft harguments.of_plain hvalue

theorem ReadsList.of_plain {text : List Char} {values : List Bool} :
    ReadsList (plain A) enabled text values → ReadsList (strict A) enabled text values
  | .nil h => .nil h
  | .last _ h => .last trivial h.of_plain
  | .cons _ h hrest => .cons trivial h.of_plain hrest.of_plain

end

theorem fits_plain : (plain A).Fits A enabled where
  word h := h.1
  literal h := h.1.quoted
  balanced _ h := h.of_plain.balanced

theorem evaluateCfg_plain {text : List Char} {value : Bool}
    (h : Reads (plain A) enabled text value) : evaluateCfg A enabled text = some value := by
  obtain ⟨hvalue, -⟩ | ⟨-, literal, hliteral, hparen⟩ :=
    h.evaluate fits_plain _ (Nat.lt_succ_self _)
  · exact hvalue
  · exact absurd hparen hliteral.2

def IsPredicate (G : Grammar) (enabled : List (List Char)) (text : List Char) : Prop :=
  ∃ value, Reads G enabled text value

/-- A text has exactly its value unless it is a predicate with an opening parenthesis in a literal,
or no predicate but one of the sloppy grammar. -/
theorem exact_iff (A : CharClasses) (enabled : List (List Char)) (text : List Char) :
    Exact A enabled text ↔
      (IsPredicate (strict A) enabled text → IsPredicate (plain A) enabled text) ∧
        (IsPredicate (sloppy A) enabled text → IsPredicate (strict A) enabled text) := by
  constructor
  · intro hexact
    refine ⟨?_, ?_⟩
    · rintro ⟨value, hreads⟩
      obtain ⟨-, hplain⟩ | ⟨hnone, -⟩ := evaluateCfg_strict hreads
      · exact ⟨value, hplain⟩
      · rw [(hexact value).mpr hreads] at hnone
        cases hnone
    · rintro ⟨value, hreads⟩
      exact ⟨value, (hexact value).mp (evaluateCfg_sloppy hreads)⟩
  · rintro ⟨hparen, hsloppy⟩ value
    constructor
    · intro hvalue
      obtain ⟨value', hreads⟩ := hsloppy ⟨value, reads_of_evaluate _ text value hvalue⟩
      obtain ⟨hvalue', -⟩ | ⟨hnone, -⟩ := evaluateCfg_strict hreads
      · rw [hvalue, Option.some.injEq] at hvalue'
        exact hvalue' ▸ hreads
      · rw [hvalue] at hnone
        cases hnone
    · intro hreads
      obtain ⟨hvalue, -⟩ | ⟨hnone, -⟩ := evaluateCfg_strict hreads
      · exact hvalue
      · obtain ⟨value', hplain⟩ := hparen ⟨value, hreads⟩
        rw [evaluateCfg_plain hplain] at hnone
        cases hnone

/-- Where predicates are exact, an item is removed only when one of its own is false. -/
theorem cfgEnabled_eq_false {cfgs : Option (List (List Char))} {attrs : List Attr}
    (hexact : ∀ enabled text, cfgs = some enabled → (∃ attr ∈ attrs,
      attr.arguments = some ('(' :: (text ++ [')']))) → Exact A enabled text)
    (h : cfgEnabled A cfgs attrs = false) :
    ∃ enabled text, cfgs = some enabled ∧
      (∃ attr ∈ attrs, attr.arguments = some ('(' :: (text ++ [')']))) ∧
        Reads (strict A) enabled text false := by
  obtain ⟨attr, hattr, hvalue⟩ : ∃ attr ∈ attrs, cfgValue A cfgs attr = some false := by
    simpa [cfgEnabled] using h
  unfold cfgValue at hvalue
  split at hvalue
  · cases hvalue
  · obtain ⟨arguments, harguments, hvalue⟩ := Option.bind_eq_some_iff.mp hvalue
    split at hvalue
    · next text =>
      obtain ⟨enabled, hcfgs, hvalue⟩ := Option.bind_eq_some_iff.mp hvalue
      obtain ⟨stripped, hstripped, hvalue⟩ := Option.bind_eq_some_iff.mp hvalue
      rw [stripParen_some hstripped] at harguments
      refine ⟨enabled, stripped, hcfgs, ⟨attr, hattr, harguments⟩, ?_⟩
      exact (hexact enabled stripped hcfgs ⟨attr, hattr, harguments⟩ false).mp hvalue
    · cases hvalue

def ascii : CharClasses where
  alphabetic := Char.isAlpha
  numeric := Char.isDigit
  delimiter c hc := by
    simp only [List.mem_cons, List.not_mem_nil, or_false] at hc
    rcases hc with rfl | rfl | rfl | rfl | rfl | rfl <;> exact ⟨rfl, rfl⟩
  blank c hc := by
    simp only [isWhitespace, decide_eq_true_eq] at hc
    have hval : c.toNat = c.val.toNat := rfl
    have hupper : c.isUpper = decide (65 ≤ c.val ∧ c.val ≤ 90) := rfl
    have hlower : c.isLower = (decide (97 ≤ c.val) && decide (c.val ≤ 122)) := rfl
    have halpha : c.isAlpha = (c.isUpper || c.isLower) := rfl
    have hdigit : c.isDigit = (decide (48 ≤ c.val) && decide (c.val ≤ 57)) := rfl
    simp only [halpha, hupper, hlower, hdigit, Bool.or_eq_false_iff, Bool.and_eq_false_iff,
      decide_eq_false_iff_not, UInt32.le_iff_toNat_le, UInt32.reduceToNat]
    omega

/-- The parenthesis in `feature = "a(b"` is taken for the one of an operator. -/
theorem paren_not_exact : ¬ Exact ascii [] "feature = \"a(b\"".toList := by
  intro hexact
  have hreads : Reads (strict ascii) []
      ([] ++ (valueCore "feature".toList [' '] [' '] "\"a(b\"".toList ++ [])) false := by
    have hword : IsName ascii "feature".toList := ⟨by decide, by decide, by decide⟩
    refine .value hword ⟨"a(b".toList, ?_, rfl⟩ .nil .nil ?_ ?_
    · exact .char (by decide) (.char (by decide) (.char (by decide) .nil))
    · exact fun c hc => List.mem_singleton.mp hc ▸ by decide
    · exact fun c hc => List.mem_singleton.mp hc ▸ by decide
  have hvalue := (hexact false).mpr hreads
  revert hvalue
  decide

end Sage.Parse.Cfg
