import Sage.Meta.Reading

/-!
# Meta — prose and its owners

The parser of documents gets to a document or to a diagnostic in the text.  The prose of a document
is the prose of its tokens, each block owned by the innermost declaration that it stands in.

* `reads_typeExpr`, `reads_typeDeclaration`, `reads_classDeclaration` — each function reads what
  the grammar says.
* `Accepts` — what holds of an accepted text.
* `parse_spec` — the parser terminates, and attributes all prose.
-/

namespace Sage.Meta

open Nesting

/-! ### Types -/

section Types

variable {k m n : Nat}

/-- Tokens that spell something. -/
def Spelling {α : Type} (spelled : α → List String → Prop) (a : α) (parts : List Syntax) : Prop :=
  ∃ texts, spelled a texts ∧ Written texts parts

theorem eaten_texts {text : String} {eaten : Bool} {parts : List Syntax}
    (h : Eaten text eaten parts) : Written (if eaten then [text] else []) parts := by
  cases eaten with
  | true => exact h
  | false =>
      obtain rfl : parts = [] := h
      exact Written.nil

theorem reads_selfSegment (root : String) :
    Reads k n (Parse.selfSegment root) fun first parts => Written (afterMarks "." first) parts ∧
      if root = "self" then first.length = 1 else first = [] := by
  rw [Parse.selfSegment]
  split
  · refine (reads_expect ".").bind fun _ a ha => reads_word.bind fun segment b hb => .pure ⟨?_, rfl⟩
    rw [List.append_nil]
    have hwords : Written [".", segment] (a ++ b) := ha.append hb
    exact hwords
  · exact .pure ⟨Written.nil, rfl⟩

theorem reads_parsePath (localType : Bool) (hn : n ≤ m) :
    Reads k n (Parse.parsePath localType m) (Spelling (Path.Spelled localType)) := by
  refine reads_span.bind fun start s hs => ?_
  obtain rfl := hs
  refine (reads_eat "$").bind fun external d hd => ?_
  refine reads_word.bind fun name w hw => ?_
  have hlength : (tokens w).length = 1 := hw.tokens_length
  dsimp only
  generalize hroot : (if external = true then "$" ++ name else name) = root
  split
  · exact .error _
  rename_i hallowed
  refine (reads_selfSegment root).bind fun first a ha => ?_
  refine ((reads_wordsAfter "::" hn).weaken (Nat.zero_le _) (by omega)).bind fun rest b hb => ?_
  refine (reads_lastStop (by omega)).bind fun stop c hc => .pure ?_
  obtain rfl := hc
  refine ⟨_, ⟨external, name, first, rest, hroot.symm, rfl, ?_, ha.2, rfl⟩, ?_⟩
  · dsimp only
    by_contra hnone
    simp only [not_or] at hnone
    refine hallowed ⟨?_, ?_, hnone.2.2.1, hnone.2.2.2⟩
    · simpa using hnone.1
    · simpa using hnone.2.1
  · have hwords := (eaten_texts hd).append (hw.append (ha.1.append hb))
    simpa using hwords

/-- A list of spelled items is spelled. -/
theorem commaList_spelling {α : Type} {spelled : α → List String → Prop} {close : String}
    {as : List α} {parts : List Syntax}
    (h : CommaList (Spelling spelled) (Written [","]) (Written [close]) as parts) :
    Spelling (CommaList spelled (· = [","]) (· = [close])) as parts := by
  induction h with
  | close hc => exact ⟨_, .close rfl, hc⟩
  | last ha hc =>
      obtain ⟨texts, hspelled, hwritten⟩ := ha
      exact ⟨_, .last hspelled rfl, hwritten.append hc⟩
  | cons ha hcomma _ ih =>
      obtain ⟨texts, hspelled, hwritten⟩ := ha
      obtain ⟨rest, hrest, hwrittenRest⟩ := ih
      exact ⟨_, .cons hspelled rfl hrest, hwritten.append (hcomma.append hwrittenRest)⟩

theorem block_spelling {α : Type} {spelled : α → List String → Prop} {close : String}
    {as : List α} {parts : List Syntax} (h : Block (Spelling spelled) (Written [close]) as parts) :
    Spelling (Block spelled (· = [close])) as parts := by
  obtain ⟨c, d, hitems, hclose, rfl⟩ := h
  have hspelled : Spelling (Items spelled) as c := by
    clear hclose
    induction hitems with
    | nil => exact ⟨[], .nil, Written.nil⟩
    | cons ha _ ih =>
        obtain ⟨texts, hspelled, hwritten⟩ := ha
        obtain ⟨rest, hrest, hwrittenRest⟩ := ih
        exact ⟨_, .cons hspelled hrest, hwritten.append hwrittenRest⟩
  obtain ⟨texts, hitems, hwritten⟩ := hspelled
  exact ⟨_, ⟨texts, _, hitems, rfl, rfl⟩, hwritten.append hclose⟩

theorem Path.Spelled.ne_nil {localType : Bool} {path : Path} {texts : List String}
    (h : path.Spelled localType texts) : texts ≠ [] := by
  obtain ⟨external, name, first, rest, -, -, -, -, rfl⟩ := h
  cases external <;> exact List.cons_ne_nil _ _

theorem TypeExpr.Spelled.ne_nil {ty : TypeExpr} {texts : List String} (h : ty.Spelled texts) :
    texts ≠ [] := by
  cases h with
  | tuple h => exact List.cons_ne_nil _ _
  | named h => exact h.ne_nil
  | applied h _ => exact fun hnil => h.ne_nil (List.append_eq_nil_iff.mp hnil).1

theorem Spelling.pos {α : Type} {spelled : α → List String → Prop} {a : α} {parts : List Syntax}
    (h : Spelling spelled a parts) (hne : ∀ texts, spelled a texts → texts ≠ []) :
    0 < (tokens parts).length := by
  obtain ⟨texts, hspelled, hwritten⟩ := h
  rw [hwritten.tokens_length]
  exact List.length_pos_iff.mpr (hne texts hspelled)

theorem reads_typeList (close : String) {item : Parse TypeExpr}
    (hitem : ∀ k, Reads k m item (Spelling TypeExpr.Spelled)) (hn : n ≤ m) :
    Reads k n (Parse.commaList close item m) (Spelling (TypesSpelled close)) :=
  (reads_commaList close hitem (fun _ _ h => h.pos fun _ => TypeExpr.Spelled.ne_nil) hn hn).mono
    fun _ _ => commaList_spelling

theorem reads_typeArguments {item : Parse TypeExpr}
    (hitem : ∀ k, Reads k m item (Spelling TypeExpr.Spelled)) (hn : n ≤ m) :
    Reads k n (Parse.typeArguments item m) fun arguments parts =>
      arguments = [] ∧ parts = [] ∨
        ∃ texts, TypesSpelled ">" arguments texts ∧ Written ("<" :: texts) parts := by
  refine (reads_eat "<").bind fun applied c hc => ?_
  cases applied with
  | true =>
      refine ((reads_typeList ">" hitem hn).weaken (Nat.le_add_right _ _) (Nat.sub_le _ _)).mono ?_
      rintro arguments parts ⟨texts, hspelled, hwritten⟩
      have hwords : Written (["<"] ++ texts) (c ++ parts) := Written.append hc hwritten
      exact .inr ⟨texts, hspelled, hwords⟩
  | false =>
      obtain rfl : c = [] := hc
      exact .pure (.inl ⟨rfl, rfl⟩)

/-- By induction on the fuel; a list of types takes a token before its items. -/
theorem reads_typeExpr : ∀ {m k n : Nat}, n ≤ m →
    Reads k n (Parse.typeExpr m) (Spelling TypeExpr.Spelled) := by
  intro m
  induction m with
  | zero =>
      intro k n hn
      obtain rfl := Nat.le_zero.mp hn
      exact .zero
  | succ m ih =>
      intro k n hn
      have hitem : ∀ k, Reads k m (Parse.typeExpr m) (Spelling TypeExpr.Spelled) :=
        fun k => ih (Nat.le_refl m)
      rw [Parse.typeExpr]
      refine reads_span.bind fun start s hs => ?_
      obtain rfl := hs
      refine (reads_eat "(").bind fun tuple c hc => ?_
      cases tuple with
      | true =>
          have hlength : (tokens c).length = 1 := Written.tokens_length hc
          have hn' : n - (tokens ([] : List Syntax)).length - (tokens c).length ≤ m := by
            rw [tokens_nil, List.length_nil]
            omega
          refine (reads_typeList ")" hitem hn').bind fun items b hb => ?_
          refine (reads_lastStop (by omega)).bind fun stop d hd => .pure ?_
          obtain rfl := hd
          obtain ⟨texts, hspelled, hwritten⟩ := hb
          refine ⟨_, .tuple hspelled, ?_⟩
          rw [List.append_nil, List.append_nil, List.nil_append]
          have hwords : Written (["("] ++ texts) (c ++ b) := Written.append hc hwritten
          exact hwords
      | false =>
          obtain rfl : c = [] := hc
          refine ((reads_parsePath true hn).weaken (Nat.le_add_right _ _) (by simp)).bind ?_
          intro path b hb
          have hpos := hb.pos fun _ => Path.Spelled.ne_nil
          have hn' : n - (tokens ([] : List Syntax)).length - (tokens ([] : List Syntax)).length -
              (tokens b).length ≤ m := by
            rw [tokens_nil, List.length_nil]
            omega
          refine (reads_typeArguments hitem hn').bind fun arguments c hc => ?_
          refine (reads_lastStop (by omega)).bind fun stop d hd => .pure ?_
          obtain rfl := hd
          obtain ⟨texts, hspelled, hwritten⟩ := hb
          rw [List.append_nil, List.append_nil, List.nil_append, List.nil_append]
          rcases hc with ⟨rfl, rfl⟩ | ⟨texts', hspelled', hwritten'⟩
          · rw [List.append_nil]
            exact ⟨texts, .named hspelled, hwritten⟩
          · exact ⟨_, .applied hspelled hspelled', hwritten.append hwritten'⟩

end Types

/-! ### Fields and variants -/

section Declarations

variable {k m n : Nat}

/-- Tokens before a declaration that belong to it. -/
theorem Reads.within {α : Type} {f : Parse α} {R : α → List Syntax → Prop} (name : α → String)
    (h : Reads k n f fun a parts => ∃ texts w inner, parts = w ++ [.declaration (name a) inner] ∧
      Written texts w ∧ R a [.declaration (name a) (w ++ inner)]) : Reads k n f R := by
  refine h.regroup ?_
  rintro a parts ⟨texts, w, inner, rfl, hw, hR⟩
  refine ⟨_, hR, ?_, fun path => ?_⟩
  · rw [tokens_append, tokens_declaration, tokens_declaration, tokens_append]
  · rw [blocks_append, blocks_declaration, blocks_declaration, blocks_append, hw.blocks_eq,
      hw.blocks_eq]

/-- The prose before the name of a field is moved to it. -/
theorem reads_fieldName : Reads k n Parse.fieldName fun field parts => ∃ d w,
    parts = [.declaration field.2 (d ++ w)] ∧ Describes field.1 d ∧ Written [field.2] w := by
  intro p hcursor hle hlt
  have hrun : Parse.fieldName.outcome p = match Parse.optionalProse.outcome p with
      | none => none
      | some (.error d) => some (.error d)
      | some (.ok (description, p')) => match Parse.word.outcome p' with
          | none => none
          | some (.error d) => some (.error d)
          | some (.ok (name, p'')) => (do
              if description.isSome then Parse.ownLast name else pure ()
              return (description, name) : Parse (Option String × String)).outcome p'' := by
    rw [Parse.fieldName, outcome_bind]
    cases Parse.optionalProse.outcome p with
    | none => rfl
    | some r =>
        cases r with
        | error d => rfl
        | ok r =>
            dsimp only
            rw [outcome_bind]
            cases Parse.word.outcome r.2 with
            | none => rfl
            | some r => cases r <;> rfl
  rcases (reads_optionalProse : Reads k n _ _) p hcursor hle hlt with
    ⟨d, hprose, hreports⟩ | ⟨description, q, hprose, hq, hfirst⟩
  · exact .inl ⟨d, by rw [hrun, hprose], hreports⟩
  have hlength := hfirst.length_le
  rw [List.length_drop] at hlength
  rw [hprose] at hrun
  rcases (reads_word : Reads 0 (n + p.tokens.length) _ _) (p.after q) (Nat.zero_le _)
      (by dsimp only [Parser.after]; omega) (by dsimp only [Parser.after]; omega) with
    ⟨d, hword, hreports⟩ | ⟨name, w, hword, hw, hsecond⟩
  · exact .inl ⟨d, by rw [hrun]; dsimp only; rw [hword], hreports⟩
  dsimp only at hrun
  rw [hword] at hrun
  refine .inr ⟨(description, name), [.declaration name (q ++ w)], ?_, ⟨q, w, rfl, hq, hw⟩, ?_⟩
  · rw [hrun]
    dsimp only
    cases description with
    | none =>
        obtain rfl : q = [] := hq
        rw [Parser.after_nil, List.nil_append]
        have hafter : p.after w = p.after [.declaration name w] := by
          rw [Parser.after, Parser.after, tokens_declaration, blocks_declaration, hw.blocks_eq,
            hw.blocks_eq]
        rw [← hafter]
        rfl
    | some text =>
        obtain ⟨span, hspan, hblock⟩ := blocks_described hq p.owner
        have hlast : (p.proseBlocks ++ blocks p.owner q ++ blocks p.owner w) =
            p.proseBlocks ++ [⟨text, ⟨span.start + 3, span.stop - 3⟩, p.owner⟩] := by
          rw [hw.blocks_eq, List.append_nil, hblock]
        have hown : (Parse.ownLast name).outcome ((p.after q).after w) =
            some (.ok ((), p.after [.declaration name (q ++ w)])) := by
          rw [Parse.ownLast, outcome_get_bind]
          dsimp only [Parser.after]
          rw [hlast, List.getLast?_concat, List.dropLast_concat]
          dsimp only
          rw [outcome_set, tokens_declaration, blocks_declaration, blocks_append, hw.blocks_eq,
            List.append_nil, tokens_append, List.length_append, Nat.add_assoc]
          obtain ⟨span', hspan', hblock'⟩ := blocks_described hq (p.owner ++ [name])
          obtain rfl : span = span' := by
            have htoken := List.cons.inj (hspan.symm.trans hspan')
            exact (Token.mk.inj htoken.1).2
          rw [hblock']
        simp only [Option.isSome_some, if_true]
        rw [outcome_bind, hown]
        rfl
  · obtain ⟨rest, hrest⟩ := hfirst
    have hdrop : p.tokens.drop (p.cursor + (tokens q).length) = rest := by
      rw [← List.drop_drop, ← hrest, List.drop_left]
    rw [tokens_declaration, tokens_append, ← hrest]
    exact (List.prefix_append_right_inj _).mpr (hdrop ▸ hsecond)

theorem reads_valueField (hn : n ≤ m) :
    Reads k n (Parse.valueField m) Parsed.ValueField.Covers := by
  refine Reads.regroup (R := fun field parts => ∃ d w v texts,
    parts = [.declaration field.name (d ++ w)] ++ v ∧ Describes field.description d ∧
      field.ty.Spelled texts ∧ Written [field.name] w ∧ Written (":" :: texts) v) ?_ ?_
  · refine reads_span.bind fun span s hs => ?_
    obtain rfl := hs
    refine reads_fieldName.bind fun field a ha => ?_
    refine (reads_expect ":").bind fun _ b hb => ?_
    refine ((reads_typeExpr hn).weaken (Nat.zero_le _) (by omega)).bind fun ty c hc => .pure ?_
    obtain ⟨d, w, rfl, hd, hw⟩ := ha
    obtain ⟨texts, hspelled, hwritten⟩ := hc
    exact ⟨d, w, b ++ c, texts, by simp, hd, hspelled, hw, hb.append hwritten⟩
  · rintro field parts ⟨d, w, v, texts, rfl, hd, hspelled, hw, hv⟩
    -- the mark and the type belong to the field as well
    refine ⟨_, ⟨d, w ++ v, texts, rfl, hd, hspelled, hw.append hv⟩, ?_, fun path => ?_⟩
    · simp only [tokens_append, tokens_declaration, List.append_assoc]
    · simp only [blocks_append, blocks_declaration, hv.blocks_eq, List.append_nil]

theorem covers_pos {name : String} {w body : List Syntax} {texts : List String}
    (hw : Written texts w) (hne : texts ≠ []) :
    0 < (tokens [Part.declaration name (w ++ body)]).length := by
  rw [tokens_declaration, tokens_append, List.length_append, hw.tokens_length]
  exact Nat.add_pos_left (List.length_pos_iff.mpr hne) _

theorem valueField_pos {field : Parsed.ValueField} {parts : List Syntax} (h : field.Covers parts) :
    0 < (tokens parts).length := by
  obtain ⟨d, w, texts, rfl, -, -, hw⟩ := h
  rw [tokens_declaration, tokens_append, List.length_append, hw.tokens_length]
  exact Nat.add_pos_right _ (Nat.succ_pos _)

theorem reads_valueFields (hn : n ≤ m) :
    Reads k n (Parse.valueFields m) Parsed.FieldsCover :=
  reads_commaList "\x7d" (fun _ => reads_valueField (Nat.le_refl m)) (fun _ _ => valueField_pos)
    hn hn

/-- The fields of a variant, behind its name. -/
theorem reads_variantBody (hn : n ≤ m) : Reads k n (do
      if ← Parse.eat "(" then do
        let description ← Parse.optionalProse
        let fields ← Parse.commaList ")" (Parse.typeExpr m) m
        return (description, Parsed.VariantFields.tuple fields)
      else if ← Parse.eat "\x7b" then do
        let description ← Parse.optionalProse
        let fields ← Parse.valueFields m
        return (description, Parsed.VariantFields.named fields)
      else do
        let description ← Parse.optionalProse
        return (description, Parsed.VariantFields.unit))
    fun body parts => body.2.Covers body.1 parts := by
  refine (reads_eat "(").bind fun tuple a ha => ?_
  cases tuple with
  | true =>
      refine reads_optionalProse.bind fun description d hd => ?_
      have htypes := reads_typeList (k := k) ")" (fun _ => reads_typeExpr (Nat.le_refl m)) hn
      refine (htypes.weaken (by omega) (by omega)).bind fun types v hv => .pure ?_
      obtain ⟨texts, hspelled, hwritten⟩ := hv
      exact ⟨a, d, v, texts, by simp, ha, hd, hspelled, hwritten⟩
  | false =>
      obtain rfl : a = [] := ha
      refine (reads_eat "\x7b").bind fun named a ha => ?_
      cases named with
      | true =>
          refine reads_optionalProse.bind fun description d hd => ?_
          refine ((reads_valueFields (k := k) hn).weaken (by omega) (by omega)).bind
            fun fields v hv => .pure ?_
          exact ⟨a, d, v, by simp, ha, hd, hv⟩
      | false =>
          obtain rfl : a = [] := ha
          refine reads_optionalProse.bind fun description d hd => .pure ?_
          have hunit : Parsed.VariantFields.unit.Covers description d := hd
          simpa using hunit

theorem reads_variant (hn : n ≤ m) : Reads k n (Parse.variant m) Parsed.Variant.Covers := by
  refine Reads.within Parsed.Variant.name ?_
  refine reads_span.bind fun span s hs => ?_
  obtain rfl := hs
  refine reads_word.bind fun name w hw => ?_
  refine (((reads_variantBody hn).owned name).weaken (Nat.zero_le _) (by omega)).bind
    fun body parts hbody => .pure ?_
  obtain ⟨inner, rfl, hinner⟩ := hbody
  exact ⟨[name], w, inner, by simp, hw, w, inner, rfl, hw, hinner⟩

theorem variant_pos {variant : Parsed.Variant} {parts : List Syntax} (h : variant.Covers parts) :
    0 < (tokens parts).length := by
  obtain ⟨w, body, rfl, hw, -⟩ := h
  exact covers_pos hw (List.cons_ne_nil _ _)

theorem reads_typeParameters (hn : n ≤ m) :
    Reads k n (Parse.typeParameters m) (Spelling ParametersSpelled) := by
  refine (reads_eat "<").bind fun generic a ha => ?_
  cases generic with
  | true =>
      refine reads_word.bind fun first b hb => ?_
      refine ((reads_wordsAfter (k := k) "," hn).weaken (by omega) (by omega)).bind
        fun rest c hc => ?_
      refine (reads_expect ">").bind fun _ d hd => .pure ?_
      have hwords : Written (["<"] ++ ([first] ++ (afterMarks "," rest ++ [">"])))
          (a ++ (b ++ (c ++ d))) := Written.append ha (hb.append (hc.append hd))
      exact ⟨_, rfl, by simpa using hwords⟩
  | false =>
      obtain rfl : a = [] := ha
      exact .pure ⟨[], rfl, Written.nil⟩

theorem reads_typeShape (keyword : String) (hn : n ≤ m) :
    Reads k n (Parse.typeShape keyword m) fun shape parts => shape.Covers keyword parts := by
  rw [Parse.typeShape]
  split
  · rename_i hkeyword
    refine (reads_expect "\x7d").bind fun _ a ha => .pure ?_
    rw [List.append_nil]
    exact ⟨hkeyword, ha⟩
  split
  · rename_i hkeyword
    refine (reads_valueFields hn).bind fun fields a ha => .pure ?_
    rw [List.append_nil]
    exact ⟨hkeyword, ha⟩
  split
  · rename_i hkeyword
    refine (reads_commaList "\x7d" (fun _ => reads_variant (Nat.le_refl m))
      (fun _ _ => variant_pos) hn hn).bind fun variants a ha => .pure ?_
    rw [List.append_nil]
    exact ⟨hkeyword, ha⟩
  · exact .error _

theorem reads_declarationProse (keyword : String) :
    Reads k n (Parse.declarationProse keyword) fun description parts =>
      (keyword = "type" → description.isSome) ∧ Describes description parts := by
  rw [Parse.declarationProse]
  split
  · refine reads_prose.bind fun description d hd => .pure ⟨fun _ => rfl, ?_⟩
    rw [List.append_nil]
    exact hd
  · rename_i hkeyword
    exact reads_optionalProse.mono fun description d hd => ⟨fun h => absurd h hkeyword, hd⟩

theorem reads_typeDeclaration (hn : n ≤ m) :
    Reads k n (Parse.typeDeclaration m) Parsed.TypeDecl.Covers := by
  refine Reads.within Parsed.TypeDecl.name ?_
  refine reads_span.bind fun span s hs => ?_
  obtain rfl := hs
  refine reads_word.bind fun keyword a ha => ?_
  refine reads_word.bind fun name b hb => ?_
  have hbody : ∀ k n, n ≤ m → Reads k n (do
      let parameters ← Parse.typeParameters m
      let braced ← Parse.at_ "\x7b"
      if keyword = "type" ∧ !braced then do
        let description ← Parse.prose
        Parse.expect ";"
        return ⟨name, parameters, some description, .opaqueValue, span⟩
      else do
        Parse.expect "\x7b"
        let description ← Parse.declarationProse keyword
        let shape ← Parse.typeShape keyword m
        return ⟨name, parameters, description, shape, span⟩)
      fun decl inner => decl.name = name ∧ Parsed.TypeDecl.Covers decl
        [.declaration decl.name (a ++ b ++ inner)] := by
    intro k n hn
    refine (reads_typeParameters hn).bind fun parameters c hc => ?_
    obtain ⟨texts, hparameters, hc⟩ := hc
    have hw : Written (keyword :: name :: texts) (a ++ b ++ c) := by
      have hwords := (ha.append hb).append hc
      exact hwords
    refine (reads_at "\x7b").bind fun braced d hd => ?_
    obtain rfl := hd
    split
    · rename_i hcompact
      refine reads_prose.bind fun description d hd => ?_
      refine (reads_expect ";").bind fun _ v hv => .pure ⟨rfl, ?_⟩
      refine ⟨keyword, texts, a ++ b ++ c, d ++ v, by simp, hparameters, hw, .inl ?_⟩
      exact ⟨d, v, rfl, hcompact.1, rfl, rfl, hd, hv⟩
    · refine (reads_expect "\x7b").bind fun _ w' hw' => ?_
      refine (reads_declarationProse keyword).bind fun description d hd => ?_
      refine ((reads_typeShape (k := k) keyword hn).weaken (by omega) (by omega)).bind
        fun shape v hv => .pure ⟨rfl, ?_⟩
      refine ⟨keyword, texts, a ++ b ++ c, w' ++ (d ++ v), by simp, hparameters, hw, .inr ?_⟩
      exact ⟨w', d, v, rfl, hw', hd.1, hd.2, hv⟩
  refine ((hbody k n hn).owned name |>.weaken (by omega) (by omega)).mono ?_
  intro decl parts hparts
  obtain ⟨inner, rfl, hname, hcovers⟩ := hparts
  refine ⟨[keyword, name], a ++ b, inner, ?_, ha.append hb, hcovers⟩
  rw [hname]
  simp

theorem typeDecl_pos {decl : Parsed.TypeDecl} {parts : List Syntax} (h : decl.Covers parts) :
    0 < (tokens parts).length := by
  obtain ⟨keyword, texts, w, body, rfl, -, hw, -⟩ := h
  exact covers_pos hw (List.cons_ne_nil _ _)

end Declarations

/-! ### Classes -/

section Classes

variable {k m n : Nat}

theorem reads_effectKind (hn : n ≤ m) : Reads k n (Parse.effectKind m) fun effect parts =>
    ∃ texts, effect.Spelled (texts ++ [";"]) ∧ Written texts parts := by
  have hpath : ∀ k n', n' ≤ n →
      Reads k n' (Parse.parsePath false m) (Spelling (Path.Spelled false)) :=
    fun k n' hn' => reads_parsePath false (Nat.le_trans hn' hn)
  refine (reads_eat "invokes").bind fun invokes a ha => ?_
  cases invokes with
  | true =>
      refine (hpath _ _ (by omega)).bind fun path b hb => ?_
      refine (reads_expect "(").bind fun _ c hc => ?_
      refine (reads_expect ")").bind fun _ d hd => .pure ?_
      obtain ⟨texts, hspelled, hwritten⟩ := hb
      have hwords : Written (["invokes"] ++ (texts ++ (["("] ++ [")"]))) (a ++ (b ++ (c ++ d))) :=
        Written.append ha (hwritten.append (hc.append hd))
      exact ⟨"invokes" :: (texts ++ ["(", ")"]), ⟨texts, hspelled, by simp⟩, by simpa using hwords⟩
  | false =>
      obtain rfl : a = [] := ha
      refine (reads_eat "forbid").bind fun forbids a ha => ?_
      cases forbids with
      | true =>
          refine (reads_expect "transitive").bind fun _ b hb => ?_
          refine (hpath _ _ (by omega)).bind fun path c hc => .pure ?_
          obtain ⟨texts, hspelled, hwritten⟩ := hc
          have hwords : Written (["forbid"] ++ (["transitive"] ++ texts)) (a ++ (b ++ c)) :=
            Written.append ha (hb.append hwritten)
          exact ⟨_, ⟨texts, hspelled, rfl⟩, by simpa using hwords⟩
      | false =>
          obtain rfl : a = [] := ha
          refine (reads_eat "reads").bind fun readsPath a ha => ?_
          cases readsPath with
          | true =>
              refine (hpath _ _ (by omega)).bind fun path c hc => .pure ?_
              obtain ⟨texts, hspelled, hwritten⟩ := hc
              have hwords : Written (["reads"] ++ texts) (a ++ c) := Written.append ha hwritten
              exact ⟨_, ⟨texts, hspelled, rfl⟩, by simpa using hwords⟩
          | false =>
              obtain rfl : a = [] := ha
              refine (reads_expect "creates").bind fun _ a ha => ?_
              refine reads_word.bind fun name b hb => ?_
              refine (reads_expect ":").bind fun _ c hc => ?_
              refine (hpath _ _ (by omega)).bind fun path d hd => .pure ?_
              obtain ⟨texts, hspelled, hwritten⟩ := hd
              have hwords : Written (["creates"] ++ ([name] ++ ([":"] ++ texts)))
                  (a ++ (b ++ (c ++ d))) := ha.append (hb.append (hc.append hwritten))
              exact ⟨_, ⟨texts, hspelled, rfl⟩, by simpa using hwords⟩

theorem reads_effect (hn : n ≤ m) :
    Reads k n (Parse.effect m) (Spelling Effect.Spelled) := by
  refine (reads_effectKind hn).bind fun effect a ha => ?_
  refine (reads_expect ";").bind fun _ b hb => .pure ?_
  obtain ⟨texts, hspelled, hwritten⟩ := ha
  rw [List.append_nil]
  exact ⟨_, hspelled, hwritten.append hb⟩

theorem Effect.Spelled.ne_nil {effect : Effect} {texts : List String} (h : effect.Spelled texts) :
    texts ≠ [] := by
  cases effect <;> obtain ⟨p, -, rfl⟩ := h <;> exact List.cons_ne_nil _ _

theorem reads_envelope (hn : n ≤ m) :
    Reads k n (Parse.envelope m) (Spelling EnvelopeSpelled) := by
  refine (reads_eat "abstract").bind fun isAbstract a ha => ?_
  cases isAbstract with
  | true =>
      refine (reads_expect ";").bind fun _ b hb => .pure ?_
      have hwords : Written (["abstract"] ++ [";"]) (a ++ b) := Written.append ha hb
      exact ⟨_, rfl, by simpa using hwords⟩
  | false =>
      obtain rfl : a = [] := ha
      refine (reads_expect "envelope").bind fun _ b hb => ?_
      refine (reads_expect "\x7b").bind fun _ c hc => ?_
      have hblock := reads_block (k := k) (n := n) "\x7d" (fun _ => reads_effect (Nat.le_refl m))
        (fun _ _ h => h.pos fun _ => Effect.Spelled.ne_nil) hn hn
      refine (hblock.weaken (by omega) (by omega)).bind fun effects d hd => .pure ?_
      obtain ⟨texts, hspelled, hwritten⟩ := block_spelling hd
      have hwords : Written (["envelope"] ++ (["\x7b"] ++ texts)) (b ++ (c ++ d)) :=
        hb.append (hc.append hwritten)
      exact ⟨_, ⟨texts, hspelled, rfl⟩, by simpa using hwords⟩

theorem reads_methodKind : Reads k n Parse.methodKind fun kind parts =>
    Written (match kind with | .query => ["query"] | .function => ["fn"]) parts := by
  refine (reads_eat "query").bind fun query a ha => ?_
  cases query with
  | true =>
      refine .pure ?_
      rw [List.append_nil]
      exact ha
  | false =>
      obtain rfl : a = [] := ha
      refine (reads_expect "fn").bind fun _ b hb => .pure ?_
      simpa using hb

theorem reads_method (hn : n ≤ m) : Reads k n (Parse.method m) Parsed.Method.Covers := by
  refine Reads.within Parsed.Method.name ?_
  refine reads_span.bind fun span s hs => ?_
  obtain rfl := hs
  refine (reads_eat "override").bind fun isOverride a ha => ?_
  refine reads_methodKind.bind fun kind b hb => ?_
  refine reads_word.bind fun name c hc => ?_
  have hbody : ∀ k n, n ≤ m → Reads k n (do
      Parse.expect "("
      Parse.expect ")"
      Parse.expect "->"
      let result ← Parse.typeExpr m
      Parse.expect "\x7b"
      let description ← Parse.prose
      let envelope ← Parse.envelope m
      Parse.expect "\x7d"
      return (⟨name, kind, isOverride, result, description, envelope, span⟩ : Parsed.Method))
      fun method inner => method.name = name ∧ Parsed.Method.Covers method
        [.declaration method.name (a ++ (b ++ c) ++ inner)] := by
    intro k n hn
    refine (reads_expect "(").bind fun _ e he => ?_
    refine (reads_expect ")").bind fun _ f hf => ?_
    refine (reads_expect "->").bind fun _ g hg => ?_
    refine ((reads_typeExpr (k := k) hn).weaken (by omega) (by omega)).bind fun result t ht => ?_
    refine (reads_expect "\x7b").bind fun _ o ho => ?_
    refine reads_prose.bind fun description d hd => ?_
    refine ((reads_envelope (k := k) hn).weaken (by omega) (by omega)).bind fun envelope v hv => ?_
    refine (reads_expect "\x7d").bind fun _ z hz => .pure ⟨rfl, ?_⟩
    obtain ⟨texts, hspelled, ht⟩ := ht
    obtain ⟨texts', henvelope, hv⟩ := hv
    refine ⟨texts, texts', a ++ (b ++ c) ++ (e ++ (f ++ (g ++ (t ++ o)))), d, v ++ z, by simp,
      hspelled, ?_, hd, henvelope, hv.append hz⟩
    have hwords := ((eaten_texts ha).append (hb.append hc)).append
      (he.append (hf.append (hg.append (ht.append ho))))
    cases kind <;> simpa [Parsed.Method.keywords] using hwords
  refine ((hbody k n hn).owned name |>.weaken (by omega) (by omega)).mono ?_
  intro method parts hparts
  obtain ⟨inner, rfl, hname, hcovers⟩ := hparts
  refine ⟨_, a ++ (b ++ c), inner, ?_, (eaten_texts ha).append (hb.append hc), hcovers⟩
  rw [hname]
  simp

theorem method_pos {method : Parsed.Method} {parts : List Syntax} (h : method.Covers parts) :
    0 < (tokens parts).length := by
  obtain ⟨texts, texts', w, d, v, rfl, -, hw, -⟩ := h
  exact covers_pos hw (List.append_ne_nil_of_right_ne_nil _ (List.cons_ne_nil _ _))

theorem reads_fieldKind : Reads k n Parse.fieldKind fun kind parts => match kind with
    | some kind => Written [kind.keyword] parts
    | none => parts = [] := by
  refine (reads_eat "identity").bind fun eaten a ha => ?_
  cases eaten with
  | true =>
      refine .pure ?_
      rw [List.append_nil]
      exact ha
  | false =>
      obtain rfl : a = [] := ha
      refine (reads_eat "input").bind fun eaten a ha => ?_
      cases eaten with
      | true =>
          refine .pure ?_
          rw [List.append_nil]
          exact ha
      | false =>
          obtain rfl : a = [] := ha
          refine (reads_eat "state").bind fun eaten a ha => ?_
          cases eaten with
          | true =>
              refine .pure ?_
              rw [List.append_nil]
              exact ha
          | false =>
              obtain rfl : a = [] := ha
              exact .pure rfl

theorem reads_member (hn : n ≤ m) : Reads k n (Parse.member m) Parsed.MemberCovers := by
  refine reads_span.bind fun span s hs => ?_
  obtain rfl := hs
  refine reads_fieldKind.bind fun kind a ha => ?_
  cases kind with
  | none =>
      obtain rfl := ha
      refine ((reads_method (k := k) hn).weaken (by omega) (by omega)).bind
        fun method b hb => .pure ?_
      have hcovers : Parsed.MemberCovers (.inr method) b := hb
      simpa using hcovers
  | some kind =>
      have ha : Written [kind.keyword] a := ha
      refine reads_word.bind fun name b hb => ?_
      refine (reads_expect ":").bind fun _ c hc => ?_
      refine ((reads_typeExpr (k := k) hn).weaken (by omega) (by omega)).bind fun ty d hd => ?_
      refine (reads_expect ";").bind fun _ e he => .pure ?_
      obtain ⟨texts, hspelled, hd⟩ := hd
      have hwords := ha.append (hb.append (hc.append (hd.append he)))
      exact ⟨_, ⟨texts, hspelled, rfl⟩, by simpa using hwords⟩

theorem member_pos {member : Field ⊕ Parsed.Method} {parts : List Syntax}
    (h : Parsed.MemberCovers member parts) : 0 < (tokens parts).length := by
  cases member with
  | inl field =>
      obtain ⟨texts, ⟨p, -, rfl⟩, hwritten⟩ := h
      rw [hwritten.tokens_length]
      exact Nat.succ_pos _
  | inr method => exact method_pos h

theorem reads_classKind : Reads k n Parse.classKind fun kind parts =>
    Written kind.keywords parts := by
  refine (reads_eat "abstract").bind fun eaten a ha => ?_
  cases eaten with
  | true =>
      refine (reads_expect "class").bind fun _ b hb => .pure ?_
      rw [List.append_nil]
      exact Written.append ha hb
  | false =>
      obtain rfl : a = [] := ha
      refine (reads_eat "context").bind fun eaten a ha => ?_
      cases eaten with
      | true =>
          refine .pure ?_
          rw [List.append_nil]
          exact ha
      | false =>
          obtain rfl : a = [] := ha
          refine (reads_expect "class").bind fun _ b hb => .pure ?_
          have hconcrete : Written ClassKind.concrete.keywords b := hb
          simpa using hconcrete

theorem reads_baseClass (hn : n ≤ m) :
    Reads k n (Parse.baseClass m) (Spelling BaseSpelled) := by
  refine (reads_eat "extends").bind fun eaten a ha => ?_
  cases eaten with
  | true =>
      refine ((reads_parsePath (k := k) false hn).weaken (by omega) (by omega)).bind
        fun path b hb => .pure ?_
      obtain ⟨texts, hspelled, hb⟩ := hb
      have hwords : Written (["extends"] ++ texts) (a ++ b) := Written.append ha hb
      exact ⟨_, ⟨texts, hspelled, rfl⟩, by simpa using hwords⟩
  | false =>
      obtain rfl : a = [] := ha
      exact .pure ⟨[], rfl, Written.nil⟩

theorem reads_classDeclaration (hn : n ≤ m) :
    Reads k n (Parse.classDeclaration m) Parsed.Class.Covers := by
  refine Reads.within Parsed.Class.name ?_
  refine reads_span.bind fun span s hs => ?_
  obtain rfl := hs
  refine reads_classKind.bind fun kind a ha => ?_
  refine reads_word.bind fun name b hb => ?_
  have hbody : ∀ k n, n ≤ m → Reads k n (do
      let base ← Parse.baseClass m
      Parse.expect "\x7b"
      let description ← Parse.prose
      let members ← Parse.block "\x7d" (Parse.member m) m
      return (⟨name, kind, base, description, members.filterMap Sum.getLeft?,
        members.filterMap Sum.getRight?, span⟩ : Parsed.Class))
      fun decl inner => decl.name = name ∧ Parsed.Class.Covers decl
        [.declaration decl.name (a ++ b ++ inner)] := by
    intro k n hn
    refine (reads_baseClass hn).bind fun base c hc => ?_
    refine (reads_expect "\x7b").bind fun _ o ho => ?_
    refine reads_prose.bind fun description d hd => ?_
    have hblock := reads_block (k := k) (n := n) "\x7d" (fun _ => reads_member (Nat.le_refl m))
      (fun _ _ => member_pos) hn hn
    refine (hblock.weaken (by omega) (by omega)).bind fun members v hv => .pure ⟨rfl, ?_⟩
    obtain ⟨texts, hspelled, hc⟩ := hc
    refine ⟨texts, members, a ++ b ++ (c ++ o), d, v, by simp, hspelled, ?_, hd, hv, rfl, rfl⟩
    have hwords := (ha.append hb).append (hc.append ho)
    simpa using hwords
  refine ((hbody k n hn).owned name |>.weaken (by omega) (by omega)).mono ?_
  intro decl parts hparts
  obtain ⟨inner, rfl, hname, hcovers⟩ := hparts
  refine ⟨_, a ++ b, inner, ?_, ha.append hb, hcovers⟩
  rw [hname]
  simp

theorem class_pos {decl : Parsed.Class} {parts : List Syntax} (h : decl.Covers parts) :
    0 < (tokens parts).length := by
  obtain ⟨texts, members, w, d, v, rfl, -, hw, -⟩ := h
  exact covers_pos hw (List.append_ne_nil_of_right_ne_nil _ (List.cons_ne_nil _ _))

end Classes

/-! ### Documents -/

section Documents

variable {k m n : Nat}

theorem reads_crateItem : Reads k n Parse.crateItem (Spelling Parsed.CrateItemSpelled) := by
  have hentry : Reads k n Parse.crateEntry fun item parts =>
      ∃ texts, Parsed.CrateItemSpelled item (texts ++ [";"]) ∧ Written texts parts := by
    refine (reads_eat "depends").bind fun depends a ha => ?_
    cases depends with
    | true =>
        refine (reads_expect "$").bind fun _ b hb => ?_
        refine reads_word.bind fun name c hc => .pure ?_
        have hwords : Written (["depends"] ++ (["$"] ++ [name])) (a ++ (b ++ c)) :=
          Written.append ha (hb.append hc)
        exact ⟨["depends", "$", name], rfl, by simpa using hwords⟩
    | false =>
        obtain rfl : a = [] := ha
        refine (reads_expect "module").bind fun _ b hb => ?_
        refine reads_word.bind fun name c hc => .pure ?_
        have hwords : Written (["module"] ++ [name]) (b ++ c) := hb.append hc
        exact ⟨["module", name], rfl, by simpa using hwords⟩
  refine hentry.bind fun item a ha => ?_
  refine (reads_expect ";").bind fun _ b hb => .pure ?_
  obtain ⟨texts, hspelled, hwritten⟩ := ha
  rw [List.append_nil]
  exact ⟨_, hspelled, hwritten.append hb⟩

theorem crateItem_ne_nil {item : String ⊕ String} {texts : List String}
    (h : Parsed.CrateItemSpelled item texts) : texts ≠ [] := by
  cases item <;> obtain rfl := h <;> exact List.cons_ne_nil _ _

theorem reads_header (hn : n ≤ m) : Reads k n (Parse.header m) Parsed.Header.Covers := by
  refine (reads_eat "crate").bind fun isCrate a ha => ?_
  cases isCrate with
  | true =>
      refine reads_word.bind fun name b hb => ?_
      refine (reads_expect "\x7b").bind fun _ c hc => ?_
      refine reads_prose.bind fun purpose d hd => ?_
      have hblock := reads_block (k := k) (n := n) "\x7d"
        (fun _ => reads_crateItem (k := _) (n := m))
        (fun _ _ h => h.pos fun _ => crateItem_ne_nil) hn hn
      refine (hblock.weaken (by omega) (by omega)).bind fun items v hv => .pure ?_
      obtain ⟨texts, hspelled, hv⟩ := block_spelling hv
      have hwords : Written (["crate"] ++ ([name] ++ ["\x7b"])) (a ++ (b ++ c)) :=
        Written.append ha (hb.append hc)
      exact ⟨a ++ (b ++ c), d, v, items, texts, by simp, by simpa using hwords, hd, hspelled, hv,
        rfl, rfl⟩
  | false =>
      obtain rfl : a = [] := ha
      refine (reads_expect "module").bind fun _ b hb => ?_
      refine ((reads_parsePath (k := k) false hn).weaken (by omega) (by omega)).bind
        fun path c hc => ?_
      refine (reads_expect ";").bind fun _ d hd => .pure ?_
      obtain ⟨texts, hspelled, hc⟩ := hc
      have hwords : Written (["module"] ++ (texts ++ [";"])) (b ++ (c ++ d)) :=
        hb.append (hc.append hd)
      exact ⟨texts, hspelled, by simpa using hwords⟩

theorem reads_declaration (hn : n ≤ m) :
    Reads k n (Parse.declaration m) Parsed.Declaration.Covers := by
  refine Reads.get_bind fun q => ?_
  split
  · refine (reads_typeDeclaration hn).bind fun decl a ha => .pure ?_
    rw [List.append_nil]
    exact ha
  · refine (reads_classDeclaration hn).bind fun decl a ha => .pure ?_
    rw [List.append_nil]
    exact ha

theorem declaration_pos {decl : Parsed.Declaration} {parts : List Syntax} (h : decl.Covers parts) :
    0 < (tokens parts).length := by
  cases decl with
  | type decl => exact typeDecl_pos h
  | «class» decl => exact class_pos h

/-- The declarations of a document take all tokens. -/
theorem declarations_outcome : ∀ {n' : Nat} {p : Parser}, p.cursor ≤ p.tokens.length →
    p.tokens.length < p.cursor + n' → n' ≤ m →
      (∃ d, (Parse.declarations m n').outcome p = some (.error d) ∧ p.Reports d) ∨
        ∃ decls parts, (Parse.declarations m n').outcome p = some (.ok (decls, p.after parts)) ∧
          Items Parsed.Declaration.Covers decls parts ∧ tokens parts = p.tokens.drop p.cursor := by
  intro n'
  induction n' with
  | zero => exact fun hle hlt => absurd hlt (Nat.not_lt.mpr hle)
  | succ n' ih =>
      intro p hle hlt hm
      by_cases hmore : p.cursor < p.tokens.length
      · have hrun : (Parse.declarations m (n' + 1)).outcome p =
            match (Parse.declaration m).outcome p with
            | none => none
            | some (.error d) => some (.error d)
            | some (.ok (decl, p')) => match (Parse.declarations m n').outcome p' with
                | none => none
                | some (.error d) => some (.error d)
                | some (.ok (decls, p'')) => some (.ok (decl :: decls, p'')) := by
          rw [Parse.declarations, outcome_get_bind, if_pos hmore, outcome_bind]
          cases (Parse.declaration m).outcome p with
          | none => rfl
          | some r =>
              cases r with
              | error d => rfl
              | ok r =>
                  dsimp only
                  rw [outcome_bind]
                  cases (Parse.declarations m n').outcome r.2 with
                  | none => rfl
                  | some r => cases r <;> rfl
        rcases (reads_declaration (k := 0) hm) p (Nat.zero_le _) hle hlt with
          ⟨d, hfirst, hreports⟩ | ⟨decl, parts, hfirst, hcovers, htaken⟩
        · exact .inl ⟨d, by rw [hrun, hfirst], hreports⟩
        obtain ⟨rest, hrest⟩ := htaken
        have hpos := declaration_pos hcovers
        have hlength := congrArg List.length hrest
        rw [List.length_append, List.length_drop] at hlength
        have hdrop : p.tokens.drop (p.cursor + (tokens parts).length) = rest := by
          rw [← List.drop_drop, ← hrest, List.drop_left]
        rcases ih (p := p.after parts) (by dsimp only [Parser.after]; omega)
          (by dsimp only [Parser.after]; omega) (by omega) with
          ⟨d, hsecond, hreports⟩ | ⟨decls, parts', hsecond, hitems, htaken⟩
        · exact .inl ⟨d, by rw [hrun, hfirst]; dsimp only; rw [hsecond], hreports⟩
        · refine .inr ⟨decl :: decls, parts ++ parts', ?_, .cons hcovers hitems, ?_⟩
          · rw [hrun, hfirst]
            dsimp only
            rw [hsecond, Parser.after_append]
          · rw [tokens_append, htaken, ← hrest]
            exact congrArg _ hdrop
      · refine .inr ⟨[], [], ?_, .nil, ?_⟩
        · rw [Parse.declarations, outcome_get_bind, if_neg hmore, Parser.after_nil]
          rfl
        · rw [List.drop_eq_nil_of_le (Nat.le_of_not_lt hmore), tokens_nil]

/-- A document takes all tokens, and its prose is theirs. -/
theorem document_outcome {p : Parser} (hcursor : p.cursor = 0) (hprose : p.proseBlocks = [])
    (howner : p.owner = []) :
    (∃ d, (Parse.document (p.tokens.length + 1)).outcome p = some (.error d) ∧ p.Reports d) ∨
      ∃ document parts p', (Parse.document (p.tokens.length + 1)).outcome p =
          some (.ok (document, p')) ∧ document.file = p.file ∧ document.Covers parts ∧
        tokens parts = p.tokens ∧ document.prose = blocks [] parts := by
  have hrun : (Parse.document (p.tokens.length + 1)).outcome p =
      match (Parse.header (p.tokens.length + 1)).outcome p with
      | none => none
      | some (.error d) => some (.error d)
      | some (.ok (header, p')) =>
          match (Parse.declarations (p.tokens.length + 1) (p.tokens.length + 1)).outcome p' with
          | none => none
          | some (.error d) => some (.error d)
          | some (.ok (decls, p'')) =>
              some (.ok (⟨p''.file, header, decls, p''.proseBlocks⟩, p'')) := by
    rw [Parse.document, outcome_bind]
    cases (Parse.header (p.tokens.length + 1)).outcome p with
    | none => rfl
    | some r =>
        cases r with
        | error d => rfl
        | ok r =>
            dsimp only
            rw [outcome_bind]
            cases (Parse.declarations (p.tokens.length + 1) (p.tokens.length + 1)).outcome r.2 with
            | none => rfl
            | some r => cases r <;> rfl
  rcases (reads_header (k := 0) (Nat.le_refl (p.tokens.length + 1))) p (Nat.zero_le _)
    (by omega) (by omega) with ⟨d, hfirst, hreports⟩ | ⟨header, parts, hfirst, hcovers, rest, hrest⟩
  · exact .inl ⟨d, by rw [hrun, hfirst], hreports⟩
  rw [hcursor, List.drop_zero] at hrest
  have hlength := congrArg List.length hrest
  rw [List.length_append] at hlength
  rcases @declarations_outcome (p.tokens.length + 1) (p.tokens.length + 1) (p.after parts)
    (by dsimp only [Parser.after]; omega) (by dsimp only [Parser.after]; omega) (Nat.le_refl _) with
    ⟨d, hsecond, hreports⟩ | ⟨decls, parts', hsecond, hitems, htaken⟩
  · exact .inl ⟨d, by rw [hrun, hfirst]; dsimp only; rw [hsecond], hreports⟩
  refine .inr ⟨⟨p.file, header, decls, ((p.after parts).after parts').proseBlocks⟩,
    parts ++ parts', (p.after parts).after parts', ?_, rfl, ⟨parts, parts', rfl, hcovers, hitems⟩,
    ?_, ?_⟩
  · rw [hrun, hfirst]
    dsimp only
    rw [hsecond]
    rfl
  · have hdrop : p.tokens.drop (tokens parts).length = rest := by rw [← hrest, List.drop_left]
    rw [tokens_append, htaken]
    dsimp only [Parser.after]
    rw [hcursor, Nat.zero_add, hdrop, hrest]
  · dsimp only [Parser.after]
    rw [hprose, howner, List.nil_append, blocks_append]

end Documents

/-! ### The whole text -/

/-- What holds of an accepted text: its tokens are those of the document, in declarations, and its
prose is theirs. -/
structure Accepts (debug : Char → String) (file source : String) (document : Parsed.Document) :
    Prop where
  named : document.file = file
  covers : ∃ parts, document.Covers parts ∧
    scan debug file (Text.byteLength source.toList) 0 source.toList = .ok (tokens parts) ∧
    document.prose = (owned [] parts).filterMap ProseBlock.of ∧
    ∀ i token owner, (owned [] parts)[i]? = some (token, owner) →
      Innermost (allExtents parts) i owner
  text : ∀ block ∈ document.prose,
    slice source.toList block.span = block.text.toList

/-- The text of a block is the source at its span. -/
theorem block_text {token : Token} {owner : List String} {block : ProseBlock} {source : List Char}
    (h : token.Written 0 source) (hblock : ProseBlock.of (token, owner) = some block) :
    slice source block.span = block.text.toList := by
  obtain ⟨kind, span⟩ := token
  cases kind with
  | word text => cases hblock
  | mark text => cases hblock
  | prose text =>
      obtain rfl := Option.some.inj hblock
      obtain ⟨before, after, rfl, hspan⟩ := h
      dsimp only at hspan
      have hquotes : Text.byteLength quotes = 3 := by decide
      have hslice := slice_append (before ++ quotes) text.toList (quotes ++ after)
      rw [hspan]
      dsimp only
      rw [TokenKind.written]
      simp only [Text.byteLength_append, hquotes] at hslice ⊢
      have hstop : 0 + Text.byteLength before + (3 + Text.byteLength text.toList + 3) - 3 =
          Text.byteLength before + 3 + Text.byteLength text.toList := by omega
      rw [hstop, Nat.zero_add]
      simpa using hslice

/-- The parser gets to a document or to a diagnostic in the text, and it attributes all prose. -/
theorem parse_spec (debug : Char → String) (file source : String) :
    (∃ d, parse debug file source = some (.error d) ∧ d.file = file ∧
        d.span.Within 0 source.toList) ∨
      ∃ document, parse debug file source = some (.ok document) ∧
        Accepts debug file source document := by
  have hscanned := scan_spec debug file 0 source.toList
  rw [Nat.zero_add] at hscanned
  rw [parse]
  dsimp only
  cases hscan : scan debug file (Text.byteLength source.toList) 0 source.toList with
  | error d =>
      rw [hscan] at hscanned
      exact .inl ⟨d, rfl, hscanned.1, hscanned.2⟩
  | ok ts =>
      rw [hscan] at hscanned
      dsimp only
      let p : Parser := ⟨file, ts, 0, Text.byteLength source.toList, [], []⟩
      rcases document_outcome (p := p) rfl rfl rfl with
        ⟨d, hrun, hfile, hspan⟩ | ⟨document, parts, p', hrun, hfile, hcovers, htokens, hprose⟩
      · refine .inl ⟨d, ?_, hfile, ?_⟩
        · rw [Parse.outcome] at hrun
          rw [hrun]
          rfl
        · rcases hspan with hend | ⟨t, ht, hspan⟩
          · exact ⟨source.toList, [], [], by simp, by rw [hend]; simp [p]⟩
          · rw [hspan]
            exact (hscanned t ht).within
      · refine .inr ⟨document, ?_, hfile, ⟨parts, hcovers, ?_, hprose, ?_⟩, ?_⟩
        · rw [Parse.outcome] at hrun
          rw [hrun]
          rfl
        · rw [htokens, hscan]
        · exact fun i token owner h => innermost h
        · intro block hblock
          rw [hprose] at hblock
          obtain ⟨⟨token, owner⟩, hentry, hof⟩ := List.mem_filterMap.mp hblock
          have htoken : token ∈ tokens parts := by
            rw [← owned_tokens []]
            exact List.mem_map.mpr ⟨_, hentry, rfl⟩
          rw [htokens] at htoken
          exact block_text (hscanned token htoken) hof

end Sage.Meta
