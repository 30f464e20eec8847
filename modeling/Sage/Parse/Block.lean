import Mathlib.Data.List.Basic
import Mathlib.Tactic.Tauto

/-!
# Parse — blocks

`parse_block_expr` of `parse/exprs.rs`, for any way to lower the expressions, patterns and types in
the block.  A block has statements and, without a semicolon, a value: its tail.

* `SyntaxNode` — the nodes of a syntax tree.
* `parseBlockExpr`, `parseLetStmt`.
* `Block` — the blocks of the grammar; `Block.node`.
* `Keeps`, `keeps_iff` — the blocks whose statements and tail are kept.
-/

namespace Sage.Parse

/-- A node with the bytes it covers, and its children with the fields they are in.  Tokens are not
named, and an extra node is a comment. -/
structure SyntaxNode where
  kind : String
  named : Bool
  extra : Bool
  startByte : Nat
  endByte : Nat
  children : List (Option String × SyntaxNode)

namespace SyntaxNode

def childByFieldName (node : SyntaxNode) (field : String) : Option SyntaxNode :=
  (node.children.find? fun child => child.1 = some field).map Prod.snd

def nodes (node : SyntaxNode) : List SyntaxNode := node.children.map Prod.snd

end SyntaxNode

/-- Bytes from the start of the item. -/
structure RelativeSpan where
  start : Nat
  end_ : Nat
deriving DecidableEq

def SyntaxNode.span (node : SyntaxNode) (itemStart : Nat) : RelativeSpan :=
  ⟨node.startByte - itemStart, node.endByte - itemStart⟩

inductive StmtCstKind (Expr Pat Type_ : Type) where
  | let_ (pat : Pat) (ty : Option Type_) (init : Option Expr)
  | expr (expr : Expr)

structure StmtCst (Expr Pat Type_ : Type) where
  kind : StmtCstKind Expr Pat Type_
  span : RelativeSpan

/-- How the parts of a block are lowered. -/
structure Lowering (Expr Pat Type_ : Type) where
  parseExpr : SyntaxNode → Expr
  parsePat : SyntaxNode → Pat
  parseType : SyntaxNode → Type_
  missingPat : RelativeSpan → Pat

variable {Expr Pat Type_ : Type} (L : Lowering Expr Pat Type_) (itemStart : Nat)

abbrev BlockParts (Expr Pat Type_ : Type) := List (StmtCst Expr Pat Type_) × Option Expr

def parseLetStmt (node : SyntaxNode) : StmtCst Expr Pat Type_ :=
  let span := node.span itemStart
  let pat := ((node.childByFieldName "pattern").map L.parsePat).getD (L.missingPat span)
  let tyAnn := (node.childByFieldName "type").map L.parseType
  let init := (node.childByFieldName "value").map L.parseExpr
  ⟨.let_ pat tyAnn init, span⟩

/-- The position of the last element with a property. -/
@[grind =] def rposition {α : Type} (p : α → Bool) : List α → Option Nat
  | [] => none
  | a :: as =>
      match rposition p as with
      | some i => some (i + 1)
      | none => if p a then some 0 else none

/-- One child of a block, the `i`th. -/
@[grind =] def parseBlockChild (isTail : Nat → Bool) (i : Nat) (child : SyntaxNode)
    (parts : BlockParts Expr Pat Type_) : BlockParts Expr Pat Type_ :=
  let (stmts, tail) := parts
  if child.kind = "let_declaration" then (stmts ++ [parseLetStmt L itemStart child], tail)
  else if child.kind = "expression_statement" then
    match child.nodes.head? with
    | some exprNode =>
        if exprNode.kind ≠ ";" then
          if isTail i then (stmts, some (L.parseExpr exprNode))
          else (stmts ++ [⟨.expr (L.parseExpr exprNode), child.span itemStart⟩], tail)
        else (stmts, tail)
    | none => (stmts, tail)
  else if child.kind ∈ ["\x7b", "\x7d", "empty_statement", "line_comment", "block_comment"] then
    (stmts, tail)
  else if child.named && !child.extra then (stmts, some (L.parseExpr child))
  else (stmts, tail)

@[grind =] def parseBlockChildren (isTail : Nat → Bool) :
    Nat → List SyntaxNode → BlockParts Expr Pat Type_ → BlockParts Expr Pat Type_
  | _, [], parts => parts
  | i, child :: children, parts =>
      parseBlockChildren isTail (i + 1) children (parseBlockChild L itemStart isTail i child parts)

/-- The last expression statement is the tail, unless a semicolon follows it among the children. -/
def parseBlockExpr (node : SyntaxNode) : BlockParts Expr Pat Type_ :=
  let children := node.nodes
  let lastExprIdx := rposition (fun c => c.kind = "expression_statement") children
  let hasTrailingSemi :=
    match lastExprIdx with
    | some i => (children.drop (i + 1)).any fun c => c.kind = "empty_statement" ∨ c.kind = ";"
    | none => false
  parseBlockChildren L itemStart (fun i => some i == lastExprIdx && !hasTrailingSemi) 0 children
    ([], none)

/-! ### The blocks of the grammar -/

@[grind =] def tokenNode (text : String) : SyntaxNode := ⟨text, false, false, 0, 0, []⟩

/-- The kinds of children of a block, or of a statement, that are no expressions. -/
@[grind =] def notExpr : List String :=
  ["let_declaration", "expression_statement", "\x7b", "\x7d", "empty_statement", "line_comment",
    "block_comment", ";"]

abbrev ExprNode :=
  { n : SyntaxNode // n.kind ∉ notExpr ∧ n.named = true ∧ n.extra = false }

abbrev CommentNode :=
  { n : SyntaxNode // n.kind = "line_comment" ∨ n.kind = "block_comment" }

abbrev LetNode := { n : SyntaxNode // n.kind = "let_declaration" }

abbrev EmptyNode := { n : SyntaxNode // n.kind = "empty_statement" }

abbrev LabelNode := { n : SyntaxNode // n.kind = "label" ∧ n.named = true ∧ n.extra = false }

/-- What stands between the braces.  A statement is an expression with its semicolon, where comments
can stand between the two, or an expression that ends with a block. -/
inductive Element where
  | let_ (n : LetNode)
  | ended (startByte endByte : Nat) (e : ExprNode) (comments : List CommentNode)
  | blockLike (startByte endByte : Nat) (e : ExprNode)
  | empty (n : EmptyNode)
  | comment (n : CommentNode)

/-- A label has a colon, and comments can stand around it. -/
structure Label where
  node : LabelNode
  beforeColon : List CommentNode
  afterColon : List CommentNode

structure Block where
  label : Option Label
  elements : List Element
  final : Option (ExprNode × List CommentNode)

@[grind =] def Element.node : Element → SyntaxNode
  | let_ n => n.1
  | ended startByte endByte e comments =>
      ⟨"expression_statement", true, false, startByte, endByte,
        (e.1 :: (comments.map Subtype.val ++ [tokenNode ";"])).map (none, ·)⟩
  | blockLike startByte endByte e =>
      ⟨"expression_statement", true, false, startByte, endByte, [(none, e.1)]⟩
  | empty n => n.1
  | comment n => n.1

def Label.nodes (label : Label) : List SyntaxNode :=
  label.node.1 :: (label.beforeColon.map Subtype.val ++
    tokenNode ":" :: label.afterColon.map Subtype.val)

namespace Block

variable (block : Block)

def labelNodes : List SyntaxNode := (block.label.map Label.nodes).getD []

def finalNodes : List SyntaxNode :=
  match block.final with
  | some (e, comments) => e.1 :: comments.map Subtype.val
  | none => []

def childNodes : List SyntaxNode :=
  block.labelNodes ++ tokenNode "\x7b" :: (block.elements.map Element.node ++
    (block.finalNodes ++ [tokenNode "\x7d"]))

def node (startByte endByte : Nat) : SyntaxNode :=
  ⟨"block", true, false, startByte, endByte, block.childNodes.map (none, ·)⟩

end Block

/-! ### What a block means -/

def Element.isComment : Element → Bool
  | comment _ => true
  | let_ _ | ended .. | blockLike .. | empty _ => false

def Element.isExprStatement : Element → Bool
  | ended .. | blockLike .. => true
  | let_ _ | empty _ | comment _ => false

/-- The statement an element is. -/
def Element.stmts (element : Element) : List (StmtCst Expr Pat Type_) :=
  match element with
  | let_ n => [parseLetStmt L itemStart n.1]
  | ended _ _ e _ | blockLike _ _ e => [⟨.expr (L.parseExpr e.1), element.node.span itemStart⟩]
  | empty _ | comment _ => []

/-- The expression without a semicolon that nothing but comments follows, and what is before it. -/
@[grind =] def splitValue : List Element → Option (List Element × ExprNode)
  | [] => none
  | .blockLike startByte endByte e :: elements =>
      if elements.all Element.isComment then some ([], e)
      else (splitValue elements).map fun (before, e') =>
        (.blockLike startByte endByte e :: before, e')
  | element :: elements => (splitValue elements).map fun (before, e) => (element :: before, e)

/-- The statements in their order, and the tail: the expression no semicolon ends, where one is last
but for comments. -/
@[grind =] def Block.meaning (block : Block) : BlockParts Expr Pat Type_ :=
  match block.final with
  | some (e, _) => (block.elements.flatMap (Element.stmts L itemStart), some (L.parseExpr e.1))
  | none =>
      match splitValue block.elements with
      | some (before, e) => (before.flatMap (Element.stmts L itemStart), some (L.parseExpr e.1))
      | none => (block.elements.flatMap (Element.stmts L itemStart), none)

/-- The block keeps its statements and its tail. -/
@[grind =] def Keeps (block : Block) : Prop :=
  ∀ startByte endByte, parseBlockExpr L itemStart (block.node startByte endByte) =
    block.meaning L itemStart

/-! ### The loop over the children -/

section Loop

variable {isTail : Nat → Bool} {i : Nat} {child : SyntaxNode} {parts : BlockParts Expr Pat Type_}

theorem parseBlockChildren_append (isTail : Nat → Bool) (bs : List SyntaxNode) :
    ∀ (as : List SyntaxNode) (i : Nat) (parts : BlockParts Expr Pat Type_),
      parseBlockChildren L itemStart isTail i (as ++ bs) parts =
        parseBlockChildren L itemStart isTail (i + as.length) bs
          (parseBlockChildren L itemStart isTail i as parts)
  | [], _, _ => rfl
  | a :: as, i, parts => by
      have hlength : i + 1 + as.length = i + (a :: as).length := by
        rw [List.length_cons]
        omega
      rw [List.cons_append, parseBlockChildren, parseBlockChildren_append isTail bs as, hlength]
      rfl

theorem parseBlockChild_let (n : LetNode) : parseBlockChild L itemStart isTail i n.1 parts =
    (parts.1 ++ [parseLetStmt L itemStart n.1], parts.2) := by
  rw [parseBlockChild, if_pos n.2]

theorem parseBlockChild_skip (h : child.kind ∈ ["\x7b", "\x7d", "empty_statement", "line_comment",
    "block_comment"]) : parseBlockChild L itemStart isTail i child parts = parts := by
  have hlet : child.kind ≠ "let_declaration" := by
    rintro heq
    rw [heq] at h
    simp at h
  have hexpr : child.kind ≠ "expression_statement" := by
    rintro heq
    rw [heq] at h
    simp at h
  rw [parseBlockChild, if_neg hlet, if_neg hexpr, if_pos h]

theorem parseBlockChild_comment (n : CommentNode) :
    parseBlockChild L itemStart isTail i n.1 parts = parts := by
  refine parseBlockChild_skip L itemStart ?_
  obtain h | h := n.2 <;> simp [h]

/-- An expression that is no statement is the tail, whatever was the tail before. -/
theorem parseBlockChild_expr (hkind : child.kind ∉ notExpr) (hnamed : child.named = true)
    (hextra : child.extra = false) :
    parseBlockChild L itemStart isTail i child parts = (parts.1, some (L.parseExpr child)) := by
  simp only [notExpr, List.mem_cons, List.not_mem_nil, or_false, not_or] at hkind
  rw [parseBlockChild, if_neg hkind.1, if_neg hkind.2.1, if_neg (by simp [hkind])]
  simp [hnamed, hextra]

theorem parseBlockChild_statement {startByte endByte : Nat} (e : ExprNode)
    (rest : List SyntaxNode) :
    parseBlockChild L itemStart isTail i
      ⟨"expression_statement", true, false, startByte, endByte, (e.1 :: rest).map (none, ·)⟩ parts =
      if isTail i then (parts.1, some (L.parseExpr e.1))
      else (parts.1 ++ [⟨.expr (L.parseExpr e.1),
        ⟨startByte - itemStart, endByte - itemStart⟩⟩], parts.2) := by
  have hkind : e.1.kind ≠ ";" := fun heq => e.2.1 (by simp [notExpr, heq])
  rw [parseBlockChild, if_neg (by simp), if_pos rfl]
  simp [SyntaxNode.nodes, hkind, SyntaxNode.span]

/-- Where no position is the tail's, an element adds its statement. -/
theorem parseBlockChild_element (element : Element) (hi : isTail i = false) :
    parseBlockChild L itemStart isTail i element.node parts =
      (parts.1 ++ element.stmts L itemStart, parts.2) := by
  cases element with
  | let_ n => exact parseBlockChild_let L itemStart n
  | ended startByte endByte e comments =>
      rw [Element.node, parseBlockChild_statement, hi]
      rfl
  | blockLike startByte endByte e =>
      have := @parseBlockChild_statement _ _ _ L itemStart isTail i parts startByte endByte e []
      rw [hi] at this
      exact this
  | empty n =>
      rw [Element.stmts, List.append_nil]
      exact parseBlockChild_skip L itemStart (by simp [Element.node, n.2])
  | comment n =>
      rw [Element.stmts, List.append_nil]
      exact parseBlockChild_comment L itemStart n

theorem parseBlockChildren_elements (elements : List Element) :
    ∀ (i : Nat) (parts : BlockParts Expr Pat Type_),
      (∀ j, i ≤ j → j < i + elements.length → isTail j = false) →
      parseBlockChildren L itemStart isTail i (elements.map Element.node) parts =
        (parts.1 ++ elements.flatMap (Element.stmts L itemStart), parts.2) := by
  induction elements with
  | nil =>
      intro i parts _
      rw [List.flatMap_nil, List.append_nil]
      rfl
  | cons element elements ih =>
      intro i parts htail
      rw [List.length_cons] at htail
      rw [List.map_cons, parseBlockChildren,
        parseBlockChild_element L itemStart element (htail i (Nat.le_refl i) (by omega)),
        ih _ _ fun j hj hj' => htail j (by omega) (by omega), List.append_assoc, List.flatMap_cons]

theorem parseBlockChildren_comments (comments : List CommentNode) :
    ∀ (i : Nat) (parts : BlockParts Expr Pat Type_),
      parseBlockChildren L itemStart isTail i (comments.map Subtype.val) parts = parts := by
  induction comments with
  | nil => exact fun _ _ => rfl
  | cons comment comments ih =>
      intro i parts
      rw [List.map_cons, parseBlockChildren, parseBlockChild_comment, ih]

theorem parseBlockChild_colon :
    parseBlockChild L itemStart isTail i (tokenNode ":") parts = parts := rfl

/-- A label is not told from an expression. -/
theorem parseBlockChildren_label (block : Block) :
    parseBlockChildren L itemStart isTail i (block.labelNodes ++ [tokenNode "\x7b"]) ([], none) =
      ([], block.label.map fun label => L.parseExpr label.node.1) := by
  have hopen : ∀ (i : Nat) (parts : BlockParts Expr Pat Type_),
      parseBlockChildren L itemStart isTail i [tokenNode "\x7b"] parts = parts := fun _ _ => rfl
  rw [parseBlockChildren_append, hopen, Block.labelNodes]
  cases block.label with
  | none => rfl
  | some label =>
      obtain ⟨hkind, hnamed, hextra⟩ := label.node.2
      have hnot : label.node.1.kind ∉ notExpr := by simp [notExpr, hkind]
      simp only [Option.map_some, Option.getD_some, Label.nodes]
      rw [parseBlockChildren, parseBlockChild_expr L itemStart hnot hnamed hextra,
        parseBlockChildren_append, parseBlockChildren_comments, parseBlockChildren,
        parseBlockChild_colon, parseBlockChildren_comments]

theorem parseBlockChildren_final (block : Block) :
    parseBlockChildren L itemStart isTail i (block.finalNodes ++ [tokenNode "\x7d"]) parts =
      (parts.1, match block.final with
        | some (e, _) => some (L.parseExpr e.1)
        | none => parts.2) := by
  have hclose : ∀ (i : Nat) (parts : BlockParts Expr Pat Type_),
      parseBlockChildren L itemStart isTail i [tokenNode "\x7d"] parts = parts := fun _ _ => rfl
  rw [parseBlockChildren_append, hclose, Block.finalNodes]
  cases block.final with
  | none => rfl
  | some final =>
      obtain ⟨e, comments⟩ := final
      rw [parseBlockChildren, parseBlockChild_expr L itemStart e.2.1 e.2.2.1 e.2.2.2]
      exact parseBlockChildren_comments L itemStart comments _ _

end Loop

/-! ### Where the last expression statement is -/

theorem rposition_eq_none {α : Type} {p : α → Bool} {as : List α} (h : ∀ a ∈ as, p a = false) :
    rposition p as = none := by
  induction as with
  | nil => rfl
  | cons a as ih =>
      rw [rposition, ih fun b hb => h b (List.mem_cons_of_mem _ hb), h a (List.mem_cons_self ..)]
      rfl

theorem rposition_append {α : Type} {p : α → Bool} {a : α} {bs : List α} (ha : p a = true)
    (hbs : ∀ b ∈ bs, p b = false) :
    ∀ as : List α, rposition p (as ++ a :: bs) = some as.length
  | [] => by simp [rposition, rposition_eq_none hbs, ha]
  | c :: as => by
      rw [List.cons_append, rposition, rposition_append ha hbs as]
      rfl

theorem Element.kind_eq_iff (element : Element) :
    element.node.kind = "expression_statement" ↔ element.isExprStatement = true := by
  cases element with
  | let_ n => simp [node, isExprStatement, n.2]
  | ended | blockLike => simp [node, isExprStatement]
  | empty n => simp [node, isExprStatement, n.2]
  | comment n =>
      obtain h | h := n.2 <;> simp [node, isExprStatement, h]

def Element.isEmpty : Element → Bool
  | empty _ => true
  | let_ _ | ended .. | blockLike .. | comment _ => false

theorem Element.kind_semi_iff (element : Element) :
    (element.node.kind = "empty_statement" ∨ element.node.kind = ";") ↔
      element.isEmpty = true := by
  cases element with
  | let_ n => simp [node, isEmpty, n.2]
  | ended | blockLike => simp [node, isEmpty]
  | empty n => simp [node, isEmpty, n.2]
  | comment n =>
      obtain h | h := n.2 <;> simp [node, isEmpty, h]

namespace Block

variable {block : Block}

/-- What stands before the first element. -/
@[grind =] def opening (block : Block) : List SyntaxNode := block.labelNodes ++ [tokenNode "\x7b"]

/-- What stands after the last. -/
@[grind =] def closing (block : Block) : List SyntaxNode := block.finalNodes ++ [tokenNode "\x7d"]

theorem childNodes_eq (block : Block) :
    block.childNodes = block.opening ++ (block.elements.map Element.node ++ block.closing) := by
  simp [childNodes, opening, closing]

theorem kind_of_mem_opening {n : SyntaxNode} (h : n ∈ block.opening) :
    n.kind ≠ "expression_statement" := by
  rw [opening, labelNodes] at h
  cases hlabel : block.label with
  | none => simp [hlabel, tokenNode] at h; simp [h]
  | some label =>
      simp only [hlabel, Option.map_some, Option.getD_some, Label.nodes, List.mem_append,
        List.mem_cons, List.mem_map, List.not_mem_nil, or_false] at h
      obtain (rfl | ⟨c, -, rfl⟩ | rfl | ⟨c, -, rfl⟩) | rfl := h
      · simp [label.node.2.1]
      · obtain h | h := c.2 <;> simp [h]
      · simp [tokenNode]
      · obtain h | h := c.2 <;> simp [h]
      · simp [tokenNode]

theorem kind_of_mem_closing {n : SyntaxNode} (h : n ∈ block.closing) :
    n.kind ≠ "expression_statement" ∧ n.kind ≠ "empty_statement" ∧ n.kind ≠ ";" := by
  rw [closing, finalNodes] at h
  cases hfinal : block.final with
  | none => simp [hfinal, tokenNode] at h; simp [h]
  | some final =>
      obtain ⟨e, comments⟩ := final
      simp only [hfinal, List.mem_append, List.mem_cons, List.mem_map, List.not_mem_nil,
        or_false] at h
      obtain (rfl | ⟨c, -, rfl⟩) | rfl := h
      · have := e.2.1
        simp only [notExpr, List.mem_cons, not_or] at this
        tauto
      · obtain h | h := c.2 <;> simp [h]
      · simp [tokenNode]

/-- The position of the last expression statement among the children. -/
def lastExprIdx (block : Block) : Option Nat :=
  rposition (fun c => c.kind = "expression_statement") block.childNodes

def hasTrailingSemi (block : Block) : Bool :=
  match block.lastExprIdx with
  | some i => (block.childNodes.drop (i + 1)).any fun c => c.kind = "empty_statement" ∨ c.kind = ";"
  | none => false

theorem parse_node (startByte endByte : Nat) :
    parseBlockExpr L itemStart (block.node startByte endByte) =
      parseBlockChildren L itemStart
        (fun i => some i == block.lastExprIdx && !block.hasTrailingSemi) 0 block.childNodes
        ([], none) := by
  have hnodes : (block.node startByte endByte).nodes = block.childNodes := by
    simp [node, SyntaxNode.nodes, Function.comp_def]
  rw [parseBlockExpr, hnodes]
  rfl

theorem lastExprIdx_eq_none (h : ∀ e ∈ block.elements, e.isExprStatement = false) :
    block.lastExprIdx = none := by
  refine rposition_eq_none fun n hn => ?_
  rw [decide_eq_false_iff_not]
  rw [childNodes_eq, List.mem_append, List.mem_append, List.mem_map] at hn
  obtain hn | ⟨e, he, rfl⟩ | hn := hn
  · exact kind_of_mem_opening hn
  · rw [e.kind_eq_iff, h e he]
    nofun
  · exact (kind_of_mem_closing hn).1

variable {before after : List Element} {e : Element}

theorem childNodes_eq_of_split (h : block.elements = before ++ e :: after) : block.childNodes =
    (block.opening ++ before.map Element.node) ++
      e.node :: (after.map Element.node ++ block.closing) := by
  rw [childNodes_eq, h]
  simp

theorem lastExprIdx_eq_some (h : block.elements = before ++ e :: after)
    (he : e.isExprStatement = true) (hafter : ∀ e ∈ after, e.isExprStatement = false) :
    block.lastExprIdx = some (block.opening.length + before.length) := by
  rw [lastExprIdx, childNodes_eq_of_split h]
  have hlength : (block.opening ++ before.map Element.node).length =
      block.opening.length + before.length := by
    simp
  rw [← hlength]
  refine rposition_append (p := fun c : SyntaxNode => decide (c.kind = "expression_statement"))
    (a := e.node) (decide_eq_true (e.kind_eq_iff.mpr he)) (fun n hn => ?_) _
  rw [decide_eq_false_iff_not]
  rw [List.mem_append, List.mem_map] at hn
  obtain ⟨e', he', rfl⟩ | hn := hn
  · rw [e'.kind_eq_iff, hafter e' he']
    nofun
  · exact (kind_of_mem_closing hn).1

theorem hasTrailingSemi_iff (h : block.elements = before ++ e :: after)
    (he : e.isExprStatement = true) (hafter : ∀ e ∈ after, e.isExprStatement = false) :
    block.hasTrailingSemi = true ↔ ∃ e' ∈ after, e'.isEmpty = true := by
  have hdrop : block.childNodes.drop (block.opening.length + before.length + 1) =
      after.map Element.node ++ block.closing := by
    have hlength : block.opening.length + before.length + 1 =
        ((block.opening ++ before.map Element.node) ++ [e.node]).length := by
      simp [Nat.add_assoc]
    rw [childNodes_eq_of_split h, List.append_cons, hlength, List.drop_left]
  rw [hasTrailingSemi, lastExprIdx_eq_some h he hafter]
  simp only [hdrop, List.any_eq_true, decide_eq_true_eq, List.mem_append, List.mem_map]
  constructor
  · rintro ⟨n, ⟨e', he', rfl⟩ | hn, hkind⟩
    · exact ⟨e', he', e'.kind_semi_iff.mp hkind⟩
    · have := kind_of_mem_closing hn
      tauto
  · rintro ⟨e', he', hempty⟩
    exact ⟨e'.node, .inl ⟨e', he', rfl⟩, e'.kind_semi_iff.mpr hempty⟩

/-- The tail of a block with no expression statement for it. -/
@[grind =] def looseTail (block : Block) (tail : Option Expr) : Option Expr :=
  match block.final with
  | some (e, _) => some (L.parseExpr e.1)
  | none => tail

/-- The loop over a block in which no statement is the tail. -/
theorem parse_untailed {isTail : Nat → Bool} (htail : ∀ i, isTail i = false) :
    parseBlockChildren L itemStart isTail 0 block.childNodes ([], none) =
      (block.elements.flatMap (Element.stmts L itemStart),
        block.looseTail L (block.label.map fun label => L.parseExpr label.node.1)) := by
  rw [childNodes_eq, parseBlockChildren_append, opening, parseBlockChildren_label,
    parseBlockChildren_append, parseBlockChildren_elements L itemStart _ _ _ fun j _ _ => htail j,
    closing, parseBlockChildren_final]
  rfl

/-- The loop over a block in which one statement is the tail. -/
theorem parse_tailed {isTail : Nat → Bool} {x : ExprNode}
    (h : block.elements = before ++ e :: after)
    (htail : ∀ i, isTail i = true ↔ i = block.opening.length + before.length)
    (he : ∀ (i : Nat) (parts : BlockParts Expr Pat Type_), isTail i = true →
      parseBlockChild L itemStart isTail i e.node parts = (parts.1, some (L.parseExpr x.1))) :
    parseBlockChildren L itemStart isTail 0 block.childNodes ([], none) =
      ((before ++ after).flatMap (Element.stmts L itemStart),
        block.looseTail L (some (L.parseExpr x.1))) := by
  have hother : ∀ i, i ≠ block.opening.length + before.length → isTail i = false := fun i hi =>
    Bool.eq_false_iff.mpr fun htrue => hi ((htail i).mp htrue)
  rw [childNodes_eq, h, List.map_append, List.map_cons, List.append_assoc, List.cons_append,
    parseBlockChildren_append, opening, parseBlockChildren_label, ← opening,
    parseBlockChildren_append,
    parseBlockChildren_elements L itemStart before _ _ fun j _ hj => hother j (by omega),
    parseBlockChildren, he _ _ ((htail _).mpr (by simp)), parseBlockChildren_append,
    parseBlockChildren_elements L itemStart after _ _ fun j hj _ => hother j (by simp at hj; omega),
    closing, parseBlockChildren_final, List.flatMap_append]
  rfl

/-! ### When a block keeps its parts -/

/-- An empty statement follows every expression statement, at some distance. -/
def Ended (block : Block) : Prop :=
  ∀ before e after, block.elements = before ++ e :: after → e.isExprStatement = true →
    ∃ e' ∈ after, e'.isEmpty = true

/-- The last element but for comments is an expression that ends with a block. -/
def EndsInBlock (block : Block) : Prop :=
  ∃ before startByte endByte x after,
    block.elements = before ++ .blockLike startByte endByte x :: after ∧
      ∀ e ∈ after, e.isComment = true

end Block

theorem exists_last_statement : ∀ es : List Element, (∀ e ∈ es, e.isExprStatement = false) ∨
    ∃ before e after, es = before ++ e :: after ∧ e.isExprStatement = true ∧
      ∀ e ∈ after, e.isExprStatement = false
  | [] => .inl nofun
  | e :: es => by
      obtain h | ⟨before, e', after, rfl, he', hafter⟩ := exists_last_statement es
      · cases he : e.isExprStatement with
        | true => exact .inr ⟨[], e, es, rfl, he, h⟩
        | false =>
            refine .inl ?_
            rintro e' (_ | ⟨_, hmem⟩)
            · exact he
            · exact h e' hmem
      · exact .inr ⟨e :: before, e', after, rfl, he', hafter⟩

/-- There is one last expression statement. -/
theorem last_statement_unique {before after before' after' : List Element} {e e' : Element}
    (heq : before ++ e :: after = before' ++ e' :: after')
    (he : e.isExprStatement = true) (hafter : ∀ e ∈ after, e.isExprStatement = false)
    (he' : e'.isExprStatement = true) (hafter' : ∀ e ∈ after', e.isExprStatement = false) :
    before = before' ∧ e = e' ∧ after = after' := by
  have hnot {es : List Element} {x : Element} (hes : ∀ e ∈ es, e.isExprStatement = false)
      (hx : x.isExprStatement = true) (hmem : x ∈ es) : False := by
    rw [hes x hmem] at hx
    cases hx
  obtain ⟨rest, rfl, hrest⟩ | ⟨rest, rfl, hrest⟩ := List.append_eq_append_iff.mp heq
  · cases rest with
    | nil =>
        cases hrest
        simp
    | cons x rest =>
        obtain ⟨-, rfl⟩ := List.cons_eq_cons.mp hrest
        exact (hnot hafter he' (by simp)).elim
  · cases rest with
    | nil =>
        cases hrest
        simp
    | cons x rest =>
        obtain ⟨-, rfl⟩ := List.cons_eq_cons.mp hrest
        exact (hnot hafter' he (by simp)).elim

theorem isExprStatement_of_isComment {e : Element} (h : e.isComment = true) :
    e.isExprStatement = false := by
  cases e with
  | comment n => rfl
  | let_ | ended | blockLike | empty => cases h

/-- An element that is not the value is before it. -/
theorem splitValue_cons {e : Element} {es before : List Element} {x : ExprNode}
    (h : es.all Element.isComment = false ∨
      ∀ startByte endByte y, e ≠ .blockLike startByte endByte y) :
    splitValue (e :: es) = some (before, x) ↔
      ∃ before', before = e :: before' ∧ splitValue es = some (before', x) := by
  have hmap : splitValue (e :: es) =
      (splitValue es).map fun (before, x) => (e :: before, x) := by
    cases e with
    | blockLike startByte endByte y =>
        rw [splitValue, h.resolve_right fun hne => hne startByte endByte y rfl]
        rfl
    | let_ | ended | empty | comment => rfl
  rw [hmap, Option.map_eq_some_iff]
  constructor
  · rintro ⟨⟨before', y⟩, hsplit, heq⟩
    cases heq
    exact ⟨before', rfl, hsplit⟩
  · rintro ⟨before', rfl, hsplit⟩
    exact ⟨(before', x), hsplit, rfl⟩

theorem splitValue_eq_some_iff {x : ExprNode} : ∀ {es before : List Element},
    splitValue es = some (before, x) ↔ ∃ startByte endByte after,
      es = before ++ .blockLike startByte endByte x :: after ∧ ∀ e ∈ after, e.isComment = true
  | [], before => by
      refine ⟨nofun, ?_⟩
      rintro ⟨startByte, endByte, after, heq, -⟩
      cases before <;> cases heq
  | e :: es, before => by
      by_cases hvalue : es.all Element.isComment = true ∧
          ∃ startByte endByte y, e = .blockLike startByte endByte y
      · obtain ⟨hall, startByte, endByte, y, rfl⟩ := hvalue
        rw [splitValue, if_pos hall]
        rw [List.all_eq_true] at hall
        constructor
        · rintro h
          cases h
          exact ⟨startByte, endByte, es, rfl, hall⟩
        · rintro ⟨startByte', endByte', after, heq, -⟩
          cases before with
          | nil =>
              cases heq
              rfl
          | cons b before =>
              obtain ⟨-, rfl⟩ := List.cons_eq_cons.mp heq
              have := hall (.blockLike startByte' endByte' x) (by simp)
              cases this
      · have hcons : es.all Element.isComment = false ∨
            ∀ startByte endByte y, e ≠ .blockLike startByte endByte y := by
          rw [not_and_or] at hvalue
          refine hvalue.imp (Bool.eq_false_iff.mpr ·) fun h startByte endByte y heq => ?_
          exact h ⟨startByte, endByte, y, heq⟩
        rw [splitValue_cons hcons]
        constructor
        · rintro ⟨before', rfl, hsplit⟩
          obtain ⟨startByte, endByte, after, rfl, hafter⟩ := splitValue_eq_some_iff.mp hsplit
          exact ⟨startByte, endByte, after, rfl, hafter⟩
        · rintro ⟨startByte, endByte, after, heq, hafter⟩
          cases before with
          | nil =>
              -- The element would be the value.
              obtain ⟨rfl, rfl⟩ := List.cons_eq_cons.mp heq
              exact absurd ⟨List.all_eq_true.mpr hafter, startByte, endByte, x, rfl⟩ hvalue
          | cons b before =>
              obtain ⟨rfl, rfl⟩ := List.cons_eq_cons.mp heq
              exact ⟨before, rfl,
                splitValue_eq_some_iff.mpr ⟨startByte, endByte, after, rfl, hafter⟩⟩

namespace Block

variable {block : Block} {before after : List Element} {e : Element}

theorem ended_iff (h : block.elements = before ++ e :: after) (he : e.isExprStatement = true)
    (hafter : ∀ e ∈ after, e.isExprStatement = false) :
    block.Ended ↔ ∃ e' ∈ after, e'.isEmpty = true := by
  constructor
  · intro hended
    exact hended before e after h he
  · rintro ⟨e', he', hempty⟩ before₁ e₁ after₁ h₁ hstatement
    obtain ⟨rest, rfl, hrest⟩ | ⟨rest, rfl, hrest⟩ := List.append_eq_append_iff.mp (h.symm.trans h₁)
    · cases rest with
      | nil =>
          cases hrest
          exact ⟨e', he', hempty⟩
      | cons x rest =>
          obtain ⟨-, rfl⟩ := List.cons_eq_cons.mp hrest
          rw [hafter e₁ (by simp)] at hstatement
          cases hstatement
    · cases rest with
      | nil =>
          cases hrest
          exact ⟨e', he', hempty⟩
      | cons x rest =>
          obtain ⟨-, rfl⟩ := List.cons_eq_cons.mp hrest
          exact ⟨e', by simp [he'], hempty⟩

theorem splitValue_eq_none (h : ¬ block.EndsInBlock) : splitValue block.elements = none := by
  cases hsplit : splitValue block.elements with
  | none => rfl
  | some split =>
      obtain ⟨before, x⟩ := split
      obtain ⟨startByte, endByte, after, heq, hafter⟩ := splitValue_eq_some_iff.mp hsplit
      exact absurd ⟨before, startByte, endByte, x, after, heq, hafter⟩ h

theorem not_endsInBlock_of_ended (h : block.Ended) : ¬ block.EndsInBlock := by
  rintro ⟨before, startByte, endByte, x, after, heq, hafter⟩
  obtain ⟨e, he, hempty⟩ := h before _ after heq rfl
  have := hafter e he
  cases e with
  | empty n => cases this
  | let_ | ended | blockLike | comment => cases hempty

/-- Where no statement is the tail, the block loses its parts by its label only. -/
theorem keeps_iff_of_ended (hended : block.Ended)
    (hloop : ∀ i, (some i == block.lastExprIdx && !block.hasTrailingSemi) = false) :
    Keeps L itemStart block ↔ (block.label ≠ none → block.final ≠ none) := by
  simp only [Keeps, parse_node, parse_untailed L itemStart hloop, forall_const]
  rw [meaning, splitValue_eq_none (not_endsInBlock_of_ended hended), looseTail]
  cases block.final with
  | some final => simp
  | none => cases block.label <;> simp

theorem exists_parseBlockChild (isTail : Nat → Bool) (he : e.isExprStatement = true) :
    ∃ x : ExprNode, (e.stmts L itemStart).length = 1 ∧
      (∀ startByte endByte y, e = .blockLike startByte endByte y → y = x) ∧
      ∀ (i : Nat) (parts : BlockParts Expr Pat Type_), isTail i = true →
        parseBlockChild L itemStart isTail i e.node parts = (parts.1, some (L.parseExpr x.1)) := by
  cases e with
  | ended startByte endByte x comments =>
      refine ⟨x, rfl, nofun, fun i parts hi => ?_⟩
      rw [Element.node, parseBlockChild_statement, hi]
      rfl
  | blockLike startByte endByte x =>
      refine ⟨x, rfl, fun _ _ y heq => ?_, fun i parts hi => ?_⟩
      · cases heq
        rfl
      · have := @parseBlockChild_statement _ _ _ L itemStart isTail i parts startByte endByte x []
        rw [hi] at this
        exact this
  | let_ | empty | comment => cases he

theorem flatMap_comments (h : ∀ e ∈ after, e.isComment = true) :
    after.flatMap (Element.stmts L itemStart) = [] := by
  rw [List.flatMap_eq_nil_iff]
  intro e he
  have := h e he
  cases e with
  | comment n => rfl
  | let_ | ended | blockLike | empty => cases this

/-- Where a statement is the tail, it must be the value of the block. -/
theorem keeps_iff_of_not_ended (h : block.elements = before ++ e :: after)
    (he : e.isExprStatement = true) (hafter : ∀ e ∈ after, e.isExprStatement = false)
    (hloop : ∀ i, (some i == block.lastExprIdx && !block.hasTrailingSemi) = true ↔
      i = block.opening.length + before.length) :
    Keeps L itemStart block ↔ block.final = none ∧ block.EndsInBlock := by
  obtain ⟨x, hlength, hblock, hchild⟩ := exists_parseBlockChild L itemStart
    (fun i => some i == block.lastExprIdx && !block.hasTrailingSemi) he
  simp only [Keeps, parse_node, parse_tailed L itemStart h hloop hchild, forall_const]
  rw [meaning, looseTail]
  cases hfinal : block.final with
  | some final =>
      -- The final expression is the tail; the statement is gone.
      refine ⟨fun heq => ?_, fun h => by cases h.1⟩
      have hstmts := congrArg (fun parts => parts.1.length) heq
      simp only [h, List.flatMap_append, List.flatMap_cons, List.length_append, hlength] at hstmts
      omega
  | none =>
      simp only [true_and]
      constructor
      · intro heq
        by_contra hnot
        rw [splitValue_eq_none hnot] at heq
        cases congrArg Prod.snd heq
      · rintro ⟨before', startByte, endByte, y, comments, heq, hcomments⟩
        obtain ⟨rfl, rfl, rfl⟩ := last_statement_unique (h.symm.trans heq) he hafter rfl
          fun e he => isExprStatement_of_isComment (hcomments e he)
        rw [splitValue_eq_some_iff.mpr ⟨startByte, endByte, _, heq, hcomments⟩,
          List.flatMap_append, flatMap_comments L itemStart hcomments, List.append_nil,
          hblock startByte endByte y rfl]

/-- A block keeps its parts exactly if an empty statement follows each of its expression statements
and it has no label without a final expression, or if it ends in an expression with a block. -/
theorem keeps_iff (block : Block) : Keeps L itemStart block ↔
    block.Ended ∧ (block.label ≠ none → block.final ≠ none) ∨
      block.final = none ∧ block.EndsInBlock := by
  obtain hnone | ⟨before, e, after, h, he, hafter⟩ := exists_last_statement block.elements
  · have hended : block.Ended := by
      intro before e after h he
      rw [hnone e (by simp [h])] at he
      cases he
    rw [keeps_iff_of_ended L itemStart hended fun i => by rw [lastExprIdx_eq_none hnone]; rfl]
    have := not_endsInBlock_of_ended hended
    tauto
  · have hsemi := hasTrailingSemi_iff h he hafter
    rw [← ended_iff h he hafter] at hsemi
    by_cases hended : block.Ended
    · rw [keeps_iff_of_ended L itemStart hended fun i => by rw [hsemi.mpr hended]; simp]
      have := not_endsInBlock_of_ended hended
      tauto
    · have hfalse : block.hasTrailingSemi = false := Bool.eq_false_iff.mpr fun htrue =>
        hended (hsemi.mp htrue)
      rw [keeps_iff_of_not_ended L itemStart h he hafter fun i => by
        rw [hfalse, lastExprIdx_eq_some h he hafter]
        simp]
      tauto

/-- `{ f; }`. -/
def call : Block where
  label := none
  elements := [.ended 2 4 ⟨⟨"identifier", true, false, 2, 3, []⟩, by decide⟩ []]
  final := none

/-- The statement is the tail, although a semicolon ends it. -/
theorem call_not_kept : ¬ Keeps ⟨fun n => n.kind, fun n => n.kind, fun n => n.kind, fun _ => ""⟩ 0
    call := by
  intro h
  have htail : some "identifier" = none := congrArg Prod.snd (h 0 6)
  cases htail

end Block

end Sage.Parse
