import Sage.Parse.Block
import Sage.Parse.Cfg

/-!
# Parse — associated items

`associated_body_supported` and `parse_associated_items` of `parse/items.rs`, with the attributes
of `parse/attrs.rs`.  One scan decides whether a trait or an impl is kept, another builds its items.

* `associatedBodySupported`, `parseAssociatedItems`, `parseOwner`.
* `Entry`, `Holds` — a body as what stands in it, each with the attributes and comments before it.
* `associatedBodySupported_iff`, `parseAssociatedItems_eq`.
-/

namespace Sage.Parse.Associated

open Cfg (Attr CharClasses)

/-- The name of an item, and the rest of its syntax. -/
structure Named (R : Type) where
  name : List Char
  rest : R

inductive TraitItemCst (F T C : Type) where
  | fn (cst : Named F) (placement : RelativeSpan)
  | type_ (cst : Named T) (placement : RelativeSpan)
  | const_ (cst : Named C) (placement : RelativeSpan)

/-- The source, its configuration, and how the parts of an item apart from its name are lowered:
from its node, its attributes and the start of the item. -/
structure Parser (F T C : Type) where
  text : SyntaxNode → List Char
  classes : CharClasses
  cfgs : Option (List (List Char))
  parseFn : SyntaxNode → List SyntaxNode → Nat → F
  parseTypeAlias : SyntaxNode → List SyntaxNode → Nat → T
  parseConst : SyntaxNode → List SyntaxNode → Nat → C

namespace Parser

variable {F T C : Type} (P : Parser F T C)

/-! ### Attributes -/

def firstNamedChild (node : SyntaxNode) : Option SyntaxNode := node.nodes.find? (·.named)

def attrOf (node : SyntaxNode) : Option Attr := do
  let inner ← firstNamedChild node
  let name ← firstNamedChild inner
  pure ⟨P.text name, (inner.childByFieldName "arguments").map P.text⟩

def cfgValue (node : SyntaxNode) : Option Bool := do
  Cfg.cfgValue P.classes P.cfgs (← P.attrOf node)

def cfgEnabled (attrs : List SyntaxNode) : Bool :=
  attrs.all fun attr => P.cfgValue attr ≠ some false

def isKnownInertItemAttribute (name : List Char) : Bool :=
  ["inline".toList, "repr".toList, "allow".toList, "deny".toList, "warn".toList,
    "forbid".toList].contains name

def associatedAttrSupported (node : SyntaxNode) : Bool :=
  (P.cfgValue node).isSome || (P.attrOf node).any fun attr => isKnownInertItemAttribute attr.path

/-! ### Bodies -/

def nodeName (node : SyntaxNode) : List Char :=
  ((node.childByFieldName "name").map P.text).getD ['_']

def itemStart (node : SyntaxNode) (attrs : List SyntaxNode) : Nat :=
  (attrs.head?.map (·.startByte)).getD node.startByte

def commentKinds : List String := ["line_comment", "block_comment"]

@[grind =] def braceKinds : List String := ["\x7b", "\x7d"]

@[grind =] def itemKinds : List String :=
  ["function_item", "function_signature_item", "associated_type", "type_item", "const_item"]

/-- An element with its attributes, where the attributes do not remove it. -/
def elementSupported (attrs : List SyntaxNode) (child : SyntaxNode) : Bool :=
  attrs.all P.associatedAttrSupported && child.kind ∈ itemKinds

@[grind =] def childrenSupported (attrs : List SyntaxNode) : List SyntaxNode → Bool
  | [] => attrs.isEmpty
  | child :: children =>
      if child.kind = "attribute_item" then childrenSupported (attrs ++ [child]) children
      else if child.kind ∈ commentKinds ++ braceKinds then childrenSupported attrs children
      else if P.cfgEnabled attrs && !P.elementSupported attrs child then false
      else childrenSupported [] children

def associatedBodySupported (node : SyntaxNode) : Bool :=
  match node.childByFieldName "body" with
  | none => true
  | some body => P.childrenSupported [] body.nodes

/-- The item is placed from its first attribute on. -/
def parseAssociatedItem (start : Nat) (attrs : List SyntaxNode) (child : SyntaxNode) :
    Option (TraitItemCst F T C) :=
  let childStart := itemStart child attrs
  let placement : RelativeSpan := { child.span start with start := childStart - start }
  if child.kind ∈ ["function_item", "function_signature_item"] then
    some (.fn ⟨P.nodeName child, P.parseFn child attrs childStart⟩ placement)
  else if child.kind ∈ ["associated_type", "type_item"] then
    some (.type_ ⟨P.nodeName child, P.parseTypeAlias child attrs childStart⟩ placement)
  else if child.kind = "const_item" then
    some (.const_ ⟨P.nodeName child, P.parseConst child attrs childStart⟩ placement)
  else none

@[grind =] def parseChildren (start : Nat) (pending : List SyntaxNode) :
    List SyntaxNode → List (TraitItemCst F T C)
  | [] => []
  | child :: children =>
      if child.kind = "attribute_item" then parseChildren start (pending ++ [child]) children
      else if child.kind ∈ commentKinds then parseChildren start pending children
      else if P.cfgEnabled pending then
        (P.parseAssociatedItem start pending child).toList ++ parseChildren start [] children
      else parseChildren start [] children

def parseAssociatedItems (node : SyntaxNode) (start : Nat) : List (TraitItemCst F T C) :=
  match node.childByFieldName "body" with
  | none => []
  | some body => P.parseChildren start [] body.nodes

/-- The items of a trait or of an impl, or none where it becomes an error item. -/
def parseOwner (node : SyntaxNode) (pending : List SyntaxNode) :
    Option (List (TraitItemCst F T C)) :=
  if P.associatedBodySupported node then
    some (P.parseAssociatedItems node (itemStart node pending))
  else none

end Parser

/-! ### What stands in a body -/

/-- Attributes and comments. -/
def IsBefore (node : SyntaxNode) : Prop :=
  node.kind = "attribute_item" ∨ node.kind ∈ Parser.commentKinds

structure Entry where
  before : List SyntaxNode
  node : SyntaxNode
  isBefore : ∀ n ∈ before, IsBefore n
  isElement : ¬IsBefore node ∧ node.kind ∉ Parser.braceKinds

@[grind =] def attrsOf (nodes : List SyntaxNode) : List SyntaxNode :=
  nodes.filter fun node => node.kind = "attribute_item"

namespace Entry

variable {F T C : Type} (P : Parser F T C) (e : Entry)

@[grind =] def nodes : List SyntaxNode := e.before ++ [e.node]

def enabled : Bool := P.cfgEnabled (attrsOf e.before)

/-- One of the three sorts of items, with no attributes but inert ones and conditions that hold. -/
def supported : Bool := P.elementSupported (attrsOf e.before) e.node

def item (start : Nat) : Option (TraitItemCst F T C) :=
  P.parseAssociatedItem start (attrsOf e.before) e.node

end Entry

/-- The entries of the body of a trait or an impl, and the attributes and comments after them. -/
structure Holds (node : SyntaxNode) (entries : List Entry) (after : List SyntaxNode) : Prop where
  isBefore : ∀ n ∈ after, IsBefore n
  body : match node.childByFieldName "body" with
    | none => entries = [] ∧ after = []
    | some body => ∃ open_ close, open_.kind = "\x7b" ∧ close.kind = "\x7d" ∧
        body.nodes = open_ :: (entries.flatMap Entry.nodes ++ after ++ [close])

variable {F T C : Type} {P : Parser F T C} {node : SyntaxNode} {entries : List Entry}
  {after : List SyntaxNode}

theorem attrsOf_cons_attr {n : SyntaxNode} (ns : List SyntaxNode) (h : n.kind = "attribute_item") :
    attrsOf (n :: ns) = n :: attrsOf ns := by simp [attrsOf, h]

theorem attrsOf_cons_of_ne {n : SyntaxNode} (ns : List SyntaxNode)
    (h : n.kind ≠ "attribute_item") : attrsOf (n :: ns) = attrsOf ns := by simp [attrsOf, h]

/-- Any nodes between the braces are entries, with attributes and comments after them. -/
theorem exists_entries (nodes : List SyntaxNode) (h : ∀ n ∈ nodes, n.kind ∉ Parser.braceKinds) :
    ∃ (entries : List Entry) (after : List SyntaxNode), (∀ n ∈ after, IsBefore n) ∧
      nodes = entries.flatMap Entry.nodes ++ after := by
  induction nodes with
  | nil => exact ⟨[], [], by simp, rfl⟩
  | cons n nodes ih =>
      obtain ⟨entries, after, hafter, rfl⟩ := ih fun m hm => h m (List.mem_cons_of_mem _ hm)
      by_cases hn : IsBefore n
      · cases entries with
        | nil => exact ⟨[], n :: after, by simpa [hn] using hafter, rfl⟩
        | cons e entries =>
            -- One more node before the first element.
            have hbefore : ∀ m ∈ n :: e.before, IsBefore m := by simpa [hn] using e.isBefore
            exact ⟨⟨n :: e.before, e.node, hbefore, e.isElement⟩ :: entries, after, hafter, rfl⟩
      · have helement : ¬IsBefore n ∧ n.kind ∉ Parser.braceKinds := ⟨hn, h n List.mem_cons_self⟩
        exact ⟨⟨[], n, by simp, helement⟩ :: entries, after, hafter, rfl⟩

/-! ### The scan -/

namespace Parser

theorem childrenSupported_before {nodes : List SyntaxNode} (h : ∀ n ∈ nodes, IsBefore n)
    (attrs rest : List SyntaxNode) :
    P.childrenSupported attrs (nodes ++ rest) =
      P.childrenSupported (attrs ++ attrsOf nodes) rest := by
  induction nodes generalizing attrs with
  | nil => simp [attrsOf]
  | cons n nodes ih =>
      have ih := ih fun m hm => h m (List.mem_cons_of_mem _ hm)
      by_cases hattr : n.kind = "attribute_item"
      · rw [List.cons_append, childrenSupported, if_pos hattr, ih, attrsOf_cons_attr _ hattr]
        simp
      · have hcomment := (h n List.mem_cons_self).resolve_left hattr
        rw [List.cons_append, childrenSupported, if_neg hattr,
          if_pos (List.mem_append_left _ hcomment), ih, attrsOf_cons_of_ne _ hattr]

theorem childrenSupported_brace {n : SyntaxNode} (h : n.kind ∈ braceKinds)
    (attrs rest : List SyntaxNode) :
    P.childrenSupported attrs (n :: rest) = P.childrenSupported attrs rest := by
  have hattr : n.kind ≠ "attribute_item" := by
    intro heq
    rw [heq] at h
    simp [braceKinds] at h
  rw [childrenSupported, if_neg hattr, if_pos (List.mem_append_right _ h)]

theorem childrenSupported_entry (e : Entry) (rest : List SyntaxNode) :
    P.childrenSupported [] (e.nodes ++ rest) =
      ((!e.enabled P || e.supported P) && P.childrenSupported [] rest) := by
  obtain ⟨hbefore, hbrace⟩ := e.isElement
  have hattr : e.node.kind ≠ "attribute_item" := fun h => hbefore (.inl h)
  have hskip : e.node.kind ∉ commentKinds ++ braceKinds := by
    intro h
    rcases List.mem_append.mp h with h | h
    · exact hbefore (.inr h)
    · exact hbrace h
  rw [Entry.nodes, List.append_assoc, childrenSupported_before e.isBefore, List.nil_append,
    List.singleton_append, childrenSupported, if_neg hattr, if_neg hskip]
  change (if (e.enabled P && !e.supported P) = true then _ else _) = _
  cases e.enabled P <;> cases e.supported P <;> simp

theorem childrenSupported_entries (entries : List Entry) (rest : List SyntaxNode) :
    P.childrenSupported [] (entries.flatMap Entry.nodes ++ rest) =
      (entries.all (fun e => !e.enabled P || e.supported P) && P.childrenSupported [] rest) := by
  induction entries with
  | nil => simp
  | cons e entries ih =>
      rw [List.flatMap_cons, List.append_assoc, childrenSupported_entry, ih, List.all_cons,
        Bool.and_assoc]

theorem associatedBodySupported_iff (h : Holds node entries after) :
    P.associatedBodySupported node = true ↔
      (∀ e ∈ entries, e.enabled P = true → e.supported P = true) ∧ attrsOf after = [] := by
  have hbody := h.body
  cases hchild : node.childByFieldName "body" with
  | none =>
      rw [hchild] at hbody
      obtain ⟨rfl, rfl⟩ := hbody
      simp [associatedBodySupported, hchild, attrsOf]
  | some body =>
      rw [hchild] at hbody
      obtain ⟨open_, close, hopen, hclose, hnodes⟩ := hbody
      have hscan : P.associatedBodySupported node =
          (entries.all (fun e => !e.enabled P || e.supported P) && (attrsOf after).isEmpty) := by
        rw [associatedBodySupported, hchild]
        dsimp only
        rw [hnodes, childrenSupported_brace (by simp [hopen, braceKinds]), List.append_assoc,
          childrenSupported_entries, childrenSupported_before h.isBefore,
          childrenSupported_brace (by simp [hclose, braceKinds])]
        rfl
      rw [hscan, Bool.and_eq_true, List.isEmpty_iff, List.all_eq_true]
      refine and_congr (forall₂_congr fun e _ => ?_) Iff.rfl
      cases e.enabled P <;> simp

/-! ### The items -/

theorem parseAssociatedItem_isSome {start : Nat} {attrs : List SyntaxNode} {child : SyntaxNode} :
    (P.parseAssociatedItem start attrs child).isSome ↔ child.kind ∈ itemKinds := by
  unfold parseAssociatedItem
  by_cases hfn : child.kind ∈ ["function_item", "function_signature_item"]
  · simp_all [itemKinds]
    tauto
  · by_cases htype : child.kind ∈ ["associated_type", "type_item"]
    · simp_all [itemKinds]
      tauto
    · by_cases hconst : child.kind = "const_item"
      · simp [hconst, itemKinds]
      · simp_all [itemKinds]

theorem parseChildren_before {nodes : List SyntaxNode} (h : ∀ n ∈ nodes, IsBefore n) (start : Nat)
    (pending rest : List SyntaxNode) :
    P.parseChildren start pending (nodes ++ rest) =
      P.parseChildren start (pending ++ attrsOf nodes) rest := by
  induction nodes generalizing pending with
  | nil => simp [attrsOf]
  | cons n nodes ih =>
      have ih := ih fun m hm => h m (List.mem_cons_of_mem _ hm)
      by_cases hattr : n.kind = "attribute_item"
      · rw [List.cons_append, parseChildren, if_pos hattr, ih, attrsOf_cons_attr _ hattr]
        simp
      · have hcomment := (h n List.mem_cons_self).resolve_left hattr
        rw [List.cons_append, parseChildren, if_neg hattr, if_pos hcomment, ih,
          attrsOf_cons_of_ne _ hattr]

/-- A brace gives no item, but it takes the attributes before it. -/
theorem parseChildren_brace {n : SyntaxNode} (h : n.kind ∈ braceKinds) (start : Nat)
    (pending rest : List SyntaxNode) :
    P.parseChildren start pending (n :: rest) = P.parseChildren start [] rest := by
  have hnone : P.parseAssociatedItem start pending n = none := by
    refine Option.not_isSome_iff_eq_none.mp (mt parseAssociatedItem_isSome.mp ?_)
    rcases List.mem_pair.mp h with h | h <;> simp [h, itemKinds]
  have hattr : n.kind ≠ "attribute_item" := by
    rcases List.mem_pair.mp h with h | h <;> simp [h]
  have hcomment : n.kind ∉ commentKinds := by
    rcases List.mem_pair.mp h with h | h <;> simp [h, commentKinds]
  rw [parseChildren, if_neg hattr, if_neg hcomment, hnone]
  simp

theorem parseChildren_entry (e : Entry) (start : Nat) (rest : List SyntaxNode) :
    P.parseChildren start [] (e.nodes ++ rest) =
      (if e.enabled P then (e.item P start).toList else []) ++ P.parseChildren start [] rest := by
  have hattr : e.node.kind ≠ "attribute_item" := fun h => e.isElement.1 (.inl h)
  have hcomment : e.node.kind ∉ commentKinds := fun h => e.isElement.1 (.inr h)
  rw [Entry.nodes, List.append_assoc, parseChildren_before e.isBefore, List.nil_append,
    List.singleton_append, parseChildren, if_neg hattr, if_neg hcomment]
  change (if e.enabled P = true then (e.item P start).toList ++ _ else _) = _
  by_cases henabled : e.enabled P <;> simp [henabled]

theorem parseChildren_entries (entries : List Entry) (start : Nat) (rest : List SyntaxNode) :
    P.parseChildren start [] (entries.flatMap Entry.nodes ++ rest) =
      (entries.filter (·.enabled P)).filterMap (·.item P start) ++
        P.parseChildren start [] rest := by
  induction entries with
  | nil => simp
  | cons e entries ih =>
      rw [List.flatMap_cons, List.append_assoc, parseChildren_entry, ih, ← List.append_assoc]
      congr 1
      by_cases henabled : e.enabled P
      · cases hitem : e.item P start <;> simp [henabled, hitem]
      · simp [henabled]

theorem parseAssociatedItems_eq (h : Holds node entries after) (start : Nat) :
    P.parseAssociatedItems node start =
      (entries.filter (·.enabled P)).filterMap (·.item P start) := by
  have hbody := h.body
  cases hchild : node.childByFieldName "body" with
  | none =>
      rw [hchild] at hbody
      obtain ⟨rfl, rfl⟩ := hbody
      simp [parseAssociatedItems, hchild]
  | some body =>
      rw [hchild] at hbody
      obtain ⟨open_, close, hopen, hclose, hnodes⟩ := hbody
      rw [parseAssociatedItems, hchild]
      dsimp only
      rw [hnodes, parseChildren_brace (by simp [hopen, braceKinds]), List.append_assoc,
        parseChildren_entries, parseChildren_before h.isBefore,
        parseChildren_brace (by simp [hclose, braceKinds])]
      simp [parseChildren]

/-- In a body that is supported every entry that is there is an item. -/
theorem map_item_of_supported (h : Holds node entries after)
    (hsupported : P.associatedBodySupported node = true) (start : Nat) :
    (P.parseAssociatedItems node start).map some =
      (entries.filter (·.enabled P)).map (·.item P start) := by
  rw [parseAssociatedItems_eq h, List.map_filterMap_some_eq_filter_map_isSome]
  rw [List.filter_eq_self]
  intro item hitem
  obtain ⟨e, he, rfl⟩ := List.mem_map.mp hitem
  obtain ⟨he, henabled⟩ := List.mem_filter.mp he
  have hsup := ((associatedBodySupported_iff h).mp hsupported).1 e he henabled
  rw [Entry.supported, elementSupported, Bool.and_eq_true] at hsup
  exact parseAssociatedItem_isSome.mpr (of_decide_eq_true hsup.2)

end Parser

end Sage.Parse.Associated
