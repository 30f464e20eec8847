import Sage.Inspector.Provider
import Sage.Inspector.Trace
import Sage.Library.Discovery
import Sage.Library.Numbered
import Mathlib.Data.List.GetD
import Mathlib.Data.Set.Function

/-!
# Inspector — comparing runs

`freeze_product`, `difference` and `compare` of `src/inspector.rs`.  The handles of continuation
pages are renumbered in the order of the first visit, through pages that may be shared or lie on
cycles; traces are compared as multisets.

* `freezeProduct` — the renumbering, with fuel for the pages entered inside one another.
* `SameUpToHandles`, `freezeProduct_eq_iff` — pages that only differ in their handles.
* `difference`, `total_difference` — what one trace has more than another.
* `Retained.compare` — the products of two revisions; `compare_exact` says what it reports.
-/

namespace Sage.Inspector

open Sage.Library.Discovery

/-! ### Freezing -/

def canonicalName (index : Nat) : String := "continuation-" ++ index.repr

structure FreezeState where
  canonicalHandles : PartialMap String Nat
  pages : List (List ValueNode)

section

variable (enterPage : String → FreezeState → Option FreezeState)

mutual

def normalizeValue : ValueNode → FreezeState → Option (ValueNode × FreezeState)
  | .record typeName fields, state => do
      let (fields, state) ← normalizeFields fields state
      return (.record typeName fields, state)
  | .variant enumName variantName fields, state => do
      let (fields, state) ← normalizeFields fields state
      return (.variant enumName variantName fields, state)
  | .sequence typeName items, state => do
      let (items, state) ← normalizeItems items state
      return (.sequence typeName items, state)
  | .truncated summary (some handle), state =>
      match state.canonicalHandles handle with
      | some index => some (.truncated summary (some (canonicalName index)), state)
      | none => do
          let index := state.pages.length
          let state ← enterPage handle state
          return (.truncated summary (some (canonicalName index)), state)
  | node, state => some (node, state)

def normalizeFields : List (ValueField ValueNode) → FreezeState →
    Option (List (ValueField ValueNode) × FreezeState)
  | [], state => some ([], state)
  | ⟨name, value⟩ :: fields, state => do
      let (value, state) ← normalizeValue value state
      let (fields, state) ← normalizeFields fields state
      return (⟨name, value⟩ :: fields, state)

def normalizeItems : List ValueNode → FreezeState → Option (List ValueNode × FreezeState)
  | [], state => some ([], state)
  | item :: items, state => do
      let (item, state) ← normalizeValue item state
      let (items, state) ← normalizeItems items state
      return (item :: items, state)

end

mutual

def normalizeRender : RenderNode → FreezeState → Option (RenderNode × FreezeState)
  | .group layout children, state => do
      let (children, state) ← normalizeChildren children state
      return (.group layout children, state)
  | .value value, state => do
      let (value, state) ← normalizeValue enterPage value state
      return (.value value, state)
  | node, state => some (node, state)

def normalizeChildren : List RenderNode → FreezeState → Option (List RenderNode × FreezeState)
  | [], state => some ([], state)
  | child :: children, state => do
      let (child, state) ← normalizeRender child state
      let (children, state) ← normalizeChildren children state
      return (child :: children, state)

end

end

/-- The page of a handle; a handle without one has an empty page. -/
def pageOf (source : PartialMap String (List ValueNode)) (handle : String) : List ValueNode :=
  (source handle).getD []

/-- Number a handle, and then the handles in its page. -/
def enterPage (source : PartialMap String (List ValueNode)) :
    Nat → String → FreezeState → Option FreezeState
  | 0, _, _ => none
  | depth + 1, handle, state => do
      let index := state.pages.length
      let state : FreezeState :=
        ⟨state.canonicalHandles.insert handle index, state.pages ++ [[]]⟩
      let (page, state) ← normalizeItems (enterPage source depth) (pageOf source handle) state
      return { state with pages := state.pages.set index page }

structure FrozenProduct where
  page : ProductPage
  continuationPages : List (List ValueNode)

/-- A product with finitely many continuation pages. -/
structure FiniteProduct extends GeneratedProduct where
  handles : List String
  finite : ∀ handle, continuations.Has handle → handle ∈ handles

def freezeProduct (product : FiniteProduct) : Option FrozenProduct := do
  let (content, state) ← normalizeRender
    (enterPage product.continuations (product.handles.length + 1)) product.page.content
    ⟨PartialMap.empty, []⟩
  return ⟨{ product.page with content := content }, state.pages⟩

/-! ### Equality -/

deriving instance DecidableEq for GroupLayout, NoticeTone

mutual

/-- The derived equality of nodes. -/
def ValueNode.same : ValueNode → ValueNode → Bool
  | .record typeName fields, .record typeName' fields' =>
      decide (typeName = typeName') && sameFields fields fields'
  | .variant enumName variantName fields, .variant enumName' variantName' fields' =>
      decide (enumName = enumName') && decide (variantName = variantName') &&
        sameFields fields fields'
  | .sequence typeName items, .sequence typeName' items' =>
      decide (typeName = typeName') && sameItems items items'
  | .scalar typeName value, .scalar typeName' value' =>
      decide (typeName = typeName') && decide (value = value')
  | .reference target, .reference target' => decide (target = target')
  | .cycle identity, .cycle identity' => decide (identity = identity')
  | .truncated summary continuation, .truncated summary' continuation' =>
      decide (summary = summary') && decide (continuation = continuation')
  | _, _ => false

def sameFields : List (ValueField ValueNode) → List (ValueField ValueNode) → Bool
  | [], [] => true
  | ⟨name, value⟩ :: fields, ⟨name', value'⟩ :: fields' =>
      decide (name = name') && value.same value' && sameFields fields fields'
  | _, _ => false

def sameItems : List ValueNode → List ValueNode → Bool
  | [], [] => true
  | item :: items, item' :: items' => item.same item' && sameItems items items'
  | _, _ => false

end

mutual

def RenderNode.same : RenderNode → RenderNode → Bool
  | .group layout children, .group layout' children' =>
      decide (layout = layout') && sameChildren children children'
  | .heading level text, .heading level' text' => decide (level = level') && decide (text = text')
  | .text text, .text text' => decide (text = text')
  | .code language text, .code language' text' =>
      decide (language = language') && decide (text = text')
  | .notice tone title text, .notice tone' title' text' =>
      decide (tone = tone') && decide (title = title') && decide (text = text')
  | .navigation target, .navigation target' => decide (target = target')
  | .value value, .value value' => value.same value'
  | _, _ => false

def sameChildren : List RenderNode → List RenderNode → Bool
  | [], [] => true
  | child :: children, child' :: children' => child.same child' && sameChildren children children'
  | _, _ => false

end

mutual

theorem ValueNode.same_iff : ∀ a b : ValueNode, a.same b = true ↔ a = b
  | .record _ fields, b => by
      cases b <;> simp [ValueNode.same, sameFields_iff fields]
  | .variant _ _ fields, b => by
      cases b <;> simp [ValueNode.same, sameFields_iff fields, and_assoc]
  | .sequence _ items, b => by
      cases b <;> simp [ValueNode.same, sameItems_iff items]
  | .scalar _ _, b => by
      cases b <;> simp [ValueNode.same]
  | .reference _, b => by
      cases b <;> simp [ValueNode.same]
  | .cycle _, b => by
      cases b <;> simp [ValueNode.same]
  | .truncated _ _, b => by
      cases b <;> simp [ValueNode.same]

theorem sameFields_iff : ∀ fields fields' : List (ValueField ValueNode),
    sameFields fields fields' = true ↔ fields = fields'
  | [], fields' => by
      cases fields' <;> simp [sameFields]
  | _ :: _, [] => by
      simp [sameFields]
  | ⟨_, value⟩ :: fields, ⟨_, value'⟩ :: fields' => by
      simp [sameFields, value.same_iff value', sameFields_iff fields fields']

theorem sameItems_iff : ∀ items items' : List ValueNode,
    sameItems items items' = true ↔ items = items'
  | [], items' => by
      cases items' <;> simp [sameItems]
  | item :: items, items' => by
      cases items' <;> simp [sameItems, item.same_iff, sameItems_iff items]

end

mutual

theorem RenderNode.same_iff : ∀ a b : RenderNode, a.same b = true ↔ a = b
  | .group _ children, b => by
      cases b <;> simp [RenderNode.same, sameChildren_iff children]
  | .heading _ _, b => by
      cases b <;> simp [RenderNode.same]
  | .text _, b => by
      cases b <;> simp [RenderNode.same]
  | .code _ _, b => by
      cases b <;> simp [RenderNode.same]
  | .notice _ _ _, b => by
      cases b <;> simp [RenderNode.same, and_assoc]
  | .navigation _, b => by
      cases b <;> simp [RenderNode.same]
  | .value value, b => by
      cases b <;> simp [RenderNode.same, value.same_iff]

theorem sameChildren_iff : ∀ children children' : List RenderNode,
    sameChildren children children' = true ↔ children = children'
  | [], children' => by
      cases children' <;> simp [sameChildren]
  | child :: children, children' => by
      cases children' <;> simp [sameChildren, child.same_iff, sameChildren_iff children]

end

instance : DecidableEq ValueNode := fun a b => decidable_of_iff _ (a.same_iff b)

instance : DecidableEq RenderNode := fun a b => decidable_of_iff _ (a.same_iff b)

deriving instance DecidableEq for ProductPage, FrozenProduct

/-! ### Handles -/

mutual

def ValueNode.rename (f : String → String) : ValueNode → ValueNode
  | .record typeName fields => .record typeName (renameFields f fields)
  | .variant enumName variantName fields => .variant enumName variantName (renameFields f fields)
  | .sequence typeName items => .sequence typeName (renameItems f items)
  | .truncated summary (some handle) => .truncated summary (some (f handle))
  | node => node

@[grind =] def renameFields (f : String → String) :
    List (ValueField ValueNode) → List (ValueField ValueNode)
  | [] => []
  | ⟨name, value⟩ :: fields => ⟨name, value.rename f⟩ :: renameFields f fields

@[grind =] def renameItems (f : String → String) : List ValueNode → List ValueNode
  | [] => []
  | item :: items => item.rename f :: renameItems f items

end

mutual

def RenderNode.handles : RenderNode → List String
  | .group _ children => childHandles children
  | .value value => value.handles
  | _ => []

def childHandles : List RenderNode → List String
  | [] => []
  | child :: children => child.handles ++ childHandles children

end

mutual

def RenderNode.rename (f : String → String) : RenderNode → RenderNode
  | .group layout children => .group layout (renameChildren f children)
  | .value value => .value (value.rename f)
  | node => node

@[grind =] def renameChildren (f : String → String) : List RenderNode → List RenderNode
  | [] => []
  | child :: children => child.rename f :: renameChildren f children

end

@[grind =] def ProductPage.rename (f : String → String) (page : ProductPage) : ProductPage :=
  { page with content := page.content.rename f }

/-- The handles that the page of a handle leads to. -/
@[grind =]
def nextHandles (source : PartialMap String (List ValueNode)) (handle : String) : List String :=
  itemHandles (pageOf source handle)

/-- The handles that can be reached from the content of a product. -/
def GeneratedProduct.Reached (product : GeneratedProduct) (handle : String) : Prop :=
  ∃ start ∈ product.page.content.handles,
    Relation.ReflTransGen (fun h k => k ∈ nextHandles product.continuations h) start handle

/-- A bijection of the handles takes one product to the other, with every page. -/
def SameUpToHandles (p q : GeneratedProduct) : Prop :=
  ∃ f : String → String, Set.BijOn f {h | p.Reached h} {h | q.Reached h} ∧
    p.page.rename f = q.page ∧
    ∀ h, p.Reached h → renameItems f (pageOf p.continuations h) = pageOf q.continuations (f h)

/-! ### Renaming -/

mutual

theorem ValueNode.rename_congr {f g : String → String} : ∀ node : ValueNode,
    (∀ h ∈ node.handles, f h = g h) → node.rename f = node.rename g
  | .record typeName fields, h => congrArg (ValueNode.record typeName) (renameFields_congr fields h)
  | .variant enumName variantName fields, h =>
      congrArg (ValueNode.variant enumName variantName) (renameFields_congr fields h)
  | .sequence typeName items, h =>
      congrArg (ValueNode.sequence typeName) (renameItems_congr items h)
  | .truncated summary (some handle), h => by
      rw [ValueNode.rename, ValueNode.rename, h handle (List.mem_singleton_self handle)]
  | .truncated _ none, _ | .scalar _ _, _ | .reference _, _ | .cycle _, _ => rfl

theorem renameFields_congr {f g : String → String} : ∀ fields : List (ValueField ValueNode),
    (∀ h ∈ fieldHandles fields, f h = g h) → renameFields f fields = renameFields g fields
  | [], _ => rfl
  | ⟨name, value⟩ :: fields, h => by
      obtain ⟨hvalue, hfields⟩ := List.forall_mem_append.mp h
      rw [renameFields, renameFields, value.rename_congr hvalue, renameFields_congr fields hfields]

theorem renameItems_congr {f g : String → String} : ∀ items : List ValueNode,
    (∀ h ∈ itemHandles items, f h = g h) → renameItems f items = renameItems g items
  | [], _ => rfl
  | item :: items, h => by
      obtain ⟨hitem, hitems⟩ := List.forall_mem_append.mp h
      rw [renameItems, renameItems, item.rename_congr hitem, renameItems_congr items hitems]

end

mutual

theorem ValueNode.handles_rename (f : String → String) : ∀ node : ValueNode,
    (node.rename f).handles = node.handles.map f
  | .record _ fields | .variant _ _ fields => fieldHandles_rename f fields
  | .sequence _ items => itemHandles_rename f items
  | .truncated _ (some _) | .truncated _ none | .scalar _ _ | .reference _ | .cycle _ => rfl

theorem fieldHandles_rename (f : String → String) : ∀ fields : List (ValueField ValueNode),
    fieldHandles (renameFields f fields) = (fieldHandles fields).map f
  | [] => rfl
  | ⟨name, value⟩ :: fields => by
      rw [renameFields, fieldHandles, fieldHandles, List.map_append, value.handles_rename f,
        fieldHandles_rename f fields]

theorem itemHandles_rename (f : String → String) : ∀ items : List ValueNode,
    itemHandles (renameItems f items) = (itemHandles items).map f
  | [] => rfl
  | item :: items => by
      rw [renameItems, itemHandles, itemHandles, List.map_append, item.handles_rename f,
        itemHandles_rename f items]

end

mutual

theorem ValueNode.rename_rename (f g : String → String) : ∀ node : ValueNode,
    (node.rename f).rename g = node.rename (g ∘ f)
  | .record typeName fields => congrArg (ValueNode.record typeName) (renameFields_rename f g fields)
  | .variant enumName variantName fields =>
      congrArg (ValueNode.variant enumName variantName) (renameFields_rename f g fields)
  | .sequence typeName items =>
      congrArg (ValueNode.sequence typeName) (renameItems_rename f g items)
  | .truncated _ (some _) | .truncated _ none | .scalar _ _ | .reference _ | .cycle _ => rfl

theorem renameFields_rename (f g : String → String) : ∀ fields : List (ValueField ValueNode),
    renameFields g (renameFields f fields) = renameFields (g ∘ f) fields
  | [] => rfl
  | ⟨name, value⟩ :: fields => by
      rw [renameFields, renameFields, renameFields, value.rename_rename f g,
        renameFields_rename f g fields]

theorem renameItems_rename (f g : String → String) : ∀ items : List ValueNode,
    renameItems g (renameItems f items) = renameItems (g ∘ f) items
  | [] => rfl
  | item :: items => by
      rw [renameItems, renameItems, renameItems, item.rename_rename f g,
        renameItems_rename f g items]

end

/-- Handles that two numberings give one number are taken to one another. -/
def Carries (f g g' : String → String) (hs ks : List String) : Prop :=
  ∀ h ∈ hs, ∀ k ∈ ks, g h = g' k → f h = k

theorem Carries.append {f g g' : String → String} {hs hs' ks ks' : List String}
    (h : Carries f g g' (hs ++ hs') (ks ++ ks')) : Carries f g g' hs ks ∧ Carries f g g' hs' ks' :=
  ⟨fun a ha b hb => h a (List.mem_append_left hs' ha) b (List.mem_append_left ks' hb),
    fun a ha b hb => h a (List.mem_append_right hs ha) b (List.mem_append_right ks hb)⟩

mutual

/-- Nodes that are one after two numberings are renamed to one another. -/
theorem ValueNode.rename_of_eq {f g g' : String → String} : ∀ node node' : ValueNode,
    Carries f g g' node.handles node'.handles → node.rename g = node'.rename g' →
    node.rename f = node'
  | .record _ fields, .record _ fields', h, heq => by
      simp only [ValueNode.rename, ValueNode.record.injEq] at heq ⊢
      exact ⟨heq.1, renameFields_of_eq fields fields' h heq.2⟩
  | .variant _ _ fields, .variant _ _ fields', h, heq => by
      simp only [ValueNode.rename, ValueNode.variant.injEq] at heq ⊢
      exact ⟨heq.1, heq.2.1, renameFields_of_eq fields fields' h heq.2.2⟩
  | .sequence _ items, .sequence _ items', h, heq => by
      simp only [ValueNode.rename, ValueNode.sequence.injEq] at heq ⊢
      exact ⟨heq.1, renameItems_of_eq items items' h heq.2⟩
  | .truncated _ (some handle), .truncated _ (some handle'), h, heq => by
      simp only [ValueNode.rename, ValueNode.truncated.injEq, Option.some.injEq] at heq ⊢
      exact ⟨heq.1, h handle (List.mem_singleton_self _) handle' (List.mem_singleton_self _) heq.2⟩
  | .truncated _ none, .truncated _ none, _, heq => heq
  | .scalar _ _, .scalar _ _, _, heq => heq
  | .reference _, .reference _, _, heq => heq
  | .cycle _, .cycle _, _, heq => heq

theorem renameFields_of_eq {f g g' : String → String} :
    ∀ fields fields' : List (ValueField ValueNode),
    Carries f g g' (fieldHandles fields) (fieldHandles fields') →
    renameFields g fields = renameFields g' fields' → renameFields f fields = fields'
  | [], [], _, _ => rfl
  | ⟨name, value⟩ :: fields, ⟨name', value'⟩ :: fields', h, heq => by
      simp only [renameFields, List.cons.injEq, ValueField.mk.injEq] at heq ⊢
      obtain ⟨hvalue, hfields⟩ := h.append
      exact ⟨⟨heq.1.1, value.rename_of_eq value' hvalue heq.1.2⟩,
        renameFields_of_eq fields fields' hfields heq.2⟩

theorem renameItems_of_eq {f g g' : String → String} : ∀ items items' : List ValueNode,
    Carries f g g' (itemHandles items) (itemHandles items') →
    renameItems g items = renameItems g' items' → renameItems f items = items'
  | [], [], _, _ => rfl
  | item :: items, item' :: items', h, heq => by
      simp only [renameItems, List.cons.injEq] at heq ⊢
      obtain ⟨hitem, hitems⟩ := h.append
      exact ⟨item.rename_of_eq item' hitem heq.1, renameItems_of_eq items items' hitems heq.2⟩

end

mutual

theorem RenderNode.rename_congr {f g : String → String} : ∀ node : RenderNode,
    (∀ h ∈ node.handles, f h = g h) → node.rename f = node.rename g
  | .group layout children, h =>
      congrArg (RenderNode.group layout) (renameChildren_congr children h)
  | .value value, h => congrArg RenderNode.value (value.rename_congr h)
  | .heading _ _, _ | .text _, _ | .code _ _, _ | .notice _ _ _, _ | .navigation _, _ => rfl

theorem renameChildren_congr {f g : String → String} : ∀ children : List RenderNode,
    (∀ h ∈ childHandles children, f h = g h) → renameChildren f children = renameChildren g children
  | [], _ => rfl
  | child :: children, h => by
      obtain ⟨hchild, hchildren⟩ := List.forall_mem_append.mp h
      rw [renameChildren, renameChildren, child.rename_congr hchild,
        renameChildren_congr children hchildren]

end

mutual

theorem RenderNode.handles_rename (f : String → String) : ∀ node : RenderNode,
    (node.rename f).handles = node.handles.map f
  | .group _ children => childHandles_rename f children
  | .value value => value.handles_rename f
  | .heading _ _ | .text _ | .code _ _ | .notice _ _ _ | .navigation _ => rfl

theorem childHandles_rename (f : String → String) : ∀ children : List RenderNode,
    childHandles (renameChildren f children) = (childHandles children).map f
  | [] => rfl
  | child :: children => by
      rw [renameChildren, childHandles, childHandles, List.map_append, child.handles_rename f,
        childHandles_rename f children]

end

mutual

theorem RenderNode.rename_rename (f g : String → String) : ∀ node : RenderNode,
    (node.rename f).rename g = node.rename (g ∘ f)
  | .group layout children =>
      congrArg (RenderNode.group layout) (renameChildren_rename f g children)
  | .value value => congrArg RenderNode.value (value.rename_rename f g)
  | .heading _ _ | .text _ | .code _ _ | .notice _ _ _ | .navigation _ => rfl

theorem renameChildren_rename (f g : String → String) : ∀ children : List RenderNode,
    renameChildren g (renameChildren f children) = renameChildren (g ∘ f) children
  | [] => rfl
  | child :: children => by
      rw [renameChildren, renameChildren, renameChildren, child.rename_rename f g,
        renameChildren_rename f g children]

end

mutual

theorem RenderNode.rename_of_eq {f g g' : String → String} : ∀ node node' : RenderNode,
    Carries f g g' node.handles node'.handles → node.rename g = node'.rename g' →
    node.rename f = node'
  | .group _ children, .group _ children', h, heq => by
      simp only [RenderNode.rename, RenderNode.group.injEq] at heq ⊢
      exact ⟨heq.1, renameChildren_of_eq children children' h heq.2⟩
  | .value value, .value value', h, heq => by
      simp only [RenderNode.rename, RenderNode.value.injEq] at heq ⊢
      exact value.rename_of_eq value' h heq
  | .heading _ _, .heading _ _, _, heq => heq
  | .text _, .text _, _, heq => heq
  | .code _ _, .code _ _, _, heq => heq
  | .notice _ _ _, .notice _ _ _, _, heq => heq
  | .navigation _, .navigation _, _, heq => heq

theorem renameChildren_of_eq {f g g' : String → String} : ∀ children children' : List RenderNode,
    Carries f g g' (childHandles children) (childHandles children') →
    renameChildren g children = renameChildren g' children' → renameChildren f children = children'
  | [], [], _, _ => rfl
  | child :: children, child' :: children', h, heq => by
      simp only [renameChildren, List.cons.injEq] at heq ⊢
      obtain ⟨hchild, hchildren⟩ := h.append
      exact ⟨child.rename_of_eq child' hchild heq.1,
        renameChildren_of_eq children children' hchildren heq.2⟩

end

/-! ### Freezing numbers what is found -/

section

variable {source : PartialMap String (List ValueNode)}

/-- The number of a handle among those found. -/
def numberIn (found : List String) (handle : String) : String :=
  canonicalName (found.idxOf handle)

@[grind =] def stateOf (found : List String) (pages : List (List ValueNode)) : FreezeState :=
  ⟨fun handle => if handle ∈ found then some (found.idxOf handle) else none, pages⟩

/-- The pages of the handles that were found last, renumbered. -/
@[grind =] def added (source : PartialMap String (List ValueNode)) (found found' : List String) :
    List (List ValueNode) :=
  (found'.drop found.length).map fun handle =>
    renameItems (numberIn found') (pageOf source handle)

theorem numberIn_prefix {found found' : List String} (hgrows : found <+: found') {handle : String}
    (h : handle ∈ found) : numberIn found handle = numberIn found' handle := by
  obtain ⟨rest, rfl⟩ := hgrows
  rw [numberIn, numberIn, List.idxOf_append_of_mem h]

theorem added_self (found : List String) : added source found found = [] := by
  rw [added, List.drop_length, List.map_nil]

theorem added_length {found found' : List String} (hgrows : found <+: found') :
    (added source found found').length + found.length = found'.length := by
  rw [added, List.length_map, List.length_drop]
  exact Nat.sub_add_cancel hgrows.length_le

/-- The pages of two walks, one after the other. -/
theorem added_trans {hs ks found found' found'' : List String}
    (hfirst : Finds (nextHandles source) hs found found')
    (hrest : Finds (nextHandles source) ks found' found'') (hnodup : found'.Nodup) :
    added source found found' ++ added source found' found'' = added source found found'' := by
  obtain ⟨new, hnew⟩ := hfirst.grows
  obtain ⟨rest, hrest'⟩ := hrest.grows
  have hpages : ∀ handle ∈ new, renameItems (numberIn found') (pageOf source handle) =
      renameItems (numberIn found'') (pageOf source handle) := by
    intro handle hhandle
    have hmem : handle ∈ found' := hnew ▸ List.mem_append_right found hhandle
    refine renameItems_congr _ fun k hk => numberIn_prefix hrest.grows ?_
    refine hfirst.closed handle hmem (fun hold => ?_) k hk
    rw [← hnew, List.nodup_append] at hnodup
    exact hnodup.2.2 handle hold handle hhandle rfl
  have hdrop : found'.drop found.length = new := by rw [← hnew, List.drop_left]
  have hdrop' : found''.drop found'.length = rest := by rw [← hrest', List.drop_left]
  have hdrop'' : found''.drop found.length = new ++ rest := by
    rw [← hrest', ← hnew, List.append_assoc, List.drop_left]
  rw [added, added, added, hdrop, hdrop', hdrop'', List.map_append, List.map_congr_left hpages]

/-- A step that visits some handles, and makes a value from the numbers they get. -/
def Normalizes {α : Type} (source : PartialMap String (List ValueNode))
    (visit : String → List String → Option (List String)) (hs : List String)
    (value : (String → String) → α) (step : FreezeState → Option (α × FreezeState)) : Prop :=
  ∀ found pages, found.Nodup → pages.length = found.length →
    step (stateOf found pages) = (visitAll visit hs found).map fun found' =>
      (value (numberIn found'), stateOf found' (pages ++ added source found found'))

variable {α β γ : Type} {visit : String → List String → Option (List String)}
  {hs ks : List String} {value : (String → String) → α}
  {step : FreezeState → Option (α × FreezeState)}

theorem Normalizes.pure (a : α) :
    Normalizes source visit [] (fun _ => a) fun state => some (a, state) := by
  intro found pages _ _
  rw [visitAll, Option.map_some, added_self, List.append_nil]

theorem Normalizes.map (h : Normalizes source visit hs value step) (g : α → β) :
    Normalizes source visit hs (fun f => g (value f)) fun state => do
      let (a, state) ← step state
      return (g a, state) := by
  intro found pages hnodup hlength
  beta_reduce
  rw [h found pages hnodup hlength]
  cases visitAll visit hs found <;> rfl

theorem visitAll_append (visit : String → List String → Option (List String)) (ks : List String) :
    ∀ (hs found : List String),
      visitAll visit (hs ++ ks) found = (visitAll visit hs found).bind (visitAll visit ks)
  | [], _ => rfl
  | h :: hs, found => by
      rw [List.cons_append, visitAll, visitAll]
      split
      · exact visitAll_append visit ks hs found
      · cases visit h found with
        | none => rfl
        | some found₁ => exact visitAll_append visit ks hs found₁

/-- What a visit of one handle finds: the handle itself first. -/
def Visits (source : PartialMap String (List ValueNode))
    (visit : String → List String → Option (List String)) : Prop :=
  ∀ h found found', h ∉ found → visit h found = some found' →
    Finds (nextHandles source) [h] found found' ∧ found ++ [h] <+: found'

theorem Normalizes.seq (hvisit : Visits source visit)
    {value' : (String → String) → β} {step' : FreezeState → Option (β × FreezeState)}
    (h : Normalizes source visit hs value step) (h' : Normalizes source visit ks value' step')
    (hcongr : ∀ f g, (∀ handle ∈ hs, f handle = g handle) → value f = value g)
    (combine : α → β → γ) :
    Normalizes source visit (hs ++ ks) (fun f => combine (value f) (value' f)) fun state => do
      let (a, state) ← step state
      let (b, state) ← step' state
      return (combine a b, state) := by
  intro found pages hnodup hlength
  beta_reduce
  rw [h found pages hnodup hlength, visitAll_append]
  cases hfirst : visitAll visit hs found with
  | none => rfl
  | some found' =>
      have hfinds := visitAll_finds
        (fun h found found' hnew hh => (hvisit h found found' hnew hh).1) hfirst
      have hnodup' := hfinds.nodup hnodup
      have hlength' : (pages ++ added source found found').length = found'.length := by
        rw [List.length_append, hlength, Nat.add_comm]
        exact added_length hfinds.grows
      simp only [Option.map_some, Option.bind_eq_bind, Option.bind_some]
      rw [h' found' _ hnodup' hlength']
      cases hrest : visitAll visit ks found' with
      | none => rfl
      | some found'' =>
          have hfinds' := visitAll_finds
            (fun h found found' hnew hh => (hvisit h found found' hnew hh).1) hrest
          have hvalue : value (numberIn found') = value (numberIn found'') :=
            hcongr _ _ fun handle hhandle =>
              numberIn_prefix hfinds'.grows (hfinds.starts handle hhandle)
          simp only [Option.map_some, Option.bind_some, Option.pure_def]
          rw [hvalue, List.append_assoc, added_trans hfinds hfinds' hnodup']

/-- A way to enter pages that finds what a walk finds, and adds their pages. -/
def EntersLike (source : PartialMap String (List ValueNode))
    (visit : String → List String → Option (List String))
    (enterPage : String → FreezeState → Option FreezeState) : Prop :=
  ∀ h found pages, h ∉ found → found.Nodup → pages.length = found.length →
    enterPage h (stateOf found pages) = (visit h found).map fun found' =>
      stateOf found' (pages ++ added source found found')

variable {enterPage' : String → FreezeState → Option FreezeState}

theorem normalizes_handle (hvisit : Visits source visit)
    (henter : EntersLike source visit enterPage') (summary handle : String) :
    Normalizes source visit [handle] (fun f => .truncated summary (some (f handle)))
      (normalizeValue enterPage' (.truncated summary (some handle))) := by
  intro found pages hnodup hlength
  rw [normalizeValue, visitAll]
  by_cases hmem : handle ∈ found
  · have hindex : (stateOf found pages).canonicalHandles handle = some (found.idxOf handle) :=
      if_pos hmem
    rw [hindex, if_pos hmem, visitAll, Option.map_some, added_self, List.append_nil]
    rfl
  · have hindex : (stateOf found pages).canonicalHandles handle = none := if_neg hmem
    rw [hindex, if_neg hmem]
    simp only [henter handle found pages hmem hnodup hlength]
    cases hfound : visit handle found with
    | none => rfl
    | some found' =>
        have hnumber : numberIn found' handle = canonicalName pages.length := by
          rw [← numberIn_prefix (hvisit handle found found' hmem hfound).2
            (List.mem_append_right found (List.mem_singleton_self handle)), numberIn, hlength,
            List.idxOf_append_of_notMem hmem, List.idxOf_cons_self, Nat.add_zero]
        simp only [Option.map_some, Option.bind_eq_bind, Option.bind_some, visitAll, hnumber]
        rfl

mutual

theorem normalizeValue_normalizes (hvisit : Visits source visit)
    (henter : EntersLike source visit enterPage') : ∀ node : ValueNode,
    Normalizes source visit node.handles node.rename (normalizeValue enterPage' node)
  | .record _ fields => (normalizeFields_normalizes hvisit henter fields).map _
  | .variant _ _ fields => (normalizeFields_normalizes hvisit henter fields).map _
  | .sequence _ items => (normalizeItems_normalizes hvisit henter items).map _
  | .truncated summary (some handle) => normalizes_handle hvisit henter summary handle
  | .truncated _ none => .pure _
  | .scalar _ _ => .pure _
  | .reference _ => .pure _
  | .cycle _ => .pure _

theorem normalizeFields_normalizes (hvisit : Visits source visit)
    (henter : EntersLike source visit enterPage') : ∀ fields : List (ValueField ValueNode),
    Normalizes source visit (fieldHandles fields) (renameFields · fields)
      (normalizeFields enterPage' fields)
  | [] => .pure _
  | ⟨name, value⟩ :: fields =>
      .seq hvisit (normalizeValue_normalizes hvisit henter value)
        (normalizeFields_normalizes hvisit henter fields) (fun _ _ => value.rename_congr)
        (fun value fields => (⟨name, value⟩ : ValueField ValueNode) :: fields)

theorem normalizeItems_normalizes (hvisit : Visits source visit)
    (henter : EntersLike source visit enterPage') : ∀ items : List ValueNode,
    Normalizes source visit (itemHandles items) (renameItems · items)
      (normalizeItems enterPage' items)
  | [] => .pure _
  | item :: items =>
      .seq hvisit (normalizeValue_normalizes hvisit henter item)
        (normalizeItems_normalizes hvisit henter items) (fun _ _ => item.rename_congr)
        (fun item items => item :: items)

end

mutual

theorem normalizeRender_normalizes (hvisit : Visits source visit)
    (henter : EntersLike source visit enterPage') : ∀ node : RenderNode,
    Normalizes source visit node.handles node.rename (normalizeRender enterPage' node)
  | .group _ children => (normalizeChildren_normalizes hvisit henter children).map _
  | .value value => (normalizeValue_normalizes hvisit henter value).map _
  | .heading _ _ => .pure _
  | .text _ => .pure _
  | .code _ _ => .pure _
  | .notice _ _ _ => .pure _
  | .navigation _ => .pure _

theorem normalizeChildren_normalizes (hvisit : Visits source visit)
    (henter : EntersLike source visit enterPage') : ∀ children : List RenderNode,
    Normalizes source visit (childHandles children) (renameChildren · children)
      (normalizeChildren enterPage' children)
  | [] => .pure _
  | child :: children =>
      .seq hvisit (normalizeRender_normalizes hvisit henter child)
        (normalizeChildren_normalizes hvisit henter children) (fun _ _ => child.rename_congr)
        (fun child children => child :: children)

end

theorem visits_enter (source : PartialMap String (List ValueNode)) (depth : Nat) :
    Visits source (enter (nextHandles source) depth) := by
  intro h found found' hnew hfound
  refine ⟨enter_finds hnew hfound, ?_⟩
  cases depth with
  | zero => cases hfound
  | succ depth => exact (visitAll_spec hfound).grows

theorem insert_stateOf {h : String} {found : List String} {pages : List (List ValueNode)}
    (hnew : h ∉ found) (page : List ValueNode) :
    (⟨(stateOf found pages).canonicalHandles.insert h found.length, pages ++ [page]⟩ :
      FreezeState) = stateOf (found ++ [h]) (pages ++ [page]) := by
  rw [stateOf, stateOf, FreezeState.mk.injEq]
  refine ⟨?_, rfl⟩
  funext k
  by_cases hk : k = h
  · subst hk
    rw [PartialMap.insert, Function.update_self, if_pos (by simp),
      List.idxOf_append_of_notMem hnew, List.idxOf_cons_self, Nat.add_zero]
  · rw [PartialMap.insert, Function.update_of_ne hk]
    change (if k ∈ found then some (found.idxOf k) else none) = _
    by_cases hmem : k ∈ found
    · rw [if_pos hmem, if_pos (List.mem_append_left _ hmem), List.idxOf_append_of_mem hmem]
    · rw [if_neg hmem, if_neg (by simp [hmem, hk])]

theorem added_enter {h : String} {found found' : List String} (hgrows : found ++ [h] <+: found') :
    added source found found' = renameItems (numberIn found') (pageOf source h) ::
      added source (found ++ [h]) found' := by
  obtain ⟨rest, hrest⟩ := hgrows
  have hdrop : found'.drop found.length = h :: rest := by
    rw [← hrest, List.append_assoc, List.drop_left, List.singleton_append]
  have hdrop' : found'.drop (found ++ [h]).length = rest := by rw [← hrest, List.drop_left]
  rw [added, added, hdrop, hdrop', List.map_cons]

/-- The page of a handle takes the place that was kept for it. -/
theorem enterPage_enters (source : PartialMap String (List ValueNode)) : ∀ depth : Nat,
    EntersLike source (enter (nextHandles source) depth) (enterPage source depth)
  | 0 => fun _ _ _ _ _ _ => rfl
  | depth + 1 => by
      intro h found pages hnew hnodup hlength
      have hnodup' : (found ++ [h]).Nodup := by
        rw [List.nodup_append]
        refine ⟨hnodup, List.nodup_singleton h, ?_⟩
        rintro k hk l hl rfl
        exact hnew (List.mem_singleton.mp hl ▸ hk)
      have hitems := normalizeItems_normalizes (visits_enter source depth)
        (enterPage_enters source depth) (pageOf source h) (found ++ [h]) (pages ++ [[]]) hnodup'
        (by simp [hlength])
      have hpages : (stateOf found pages).pages = pages := rfl
      rw [enterPage, enter, nextHandles, hpages]
      simp only [hlength, insert_stateOf hnew, hitems]
      cases hfound : visitAll (enter (nextHandles source) depth) (itemHandles (pageOf source h))
          (found ++ [h]) with
      | none => rfl
      | some found' =>
          simp only [Option.map_some, Option.bind_eq_bind, Option.bind_some, Option.pure_def,
            Option.some.injEq]
          rw [added_enter (visitAll_spec hfound).grows, stateOf, stateOf, FreezeState.mk.injEq,
            List.append_assoc, List.set_append_right _ _ (Nat.le_of_eq hlength)]
          simp [hlength]

/-- Freezing is renumbering: every page is renamed by the order in which its handle was found. -/
theorem freezeProduct_eq (product : FiniteProduct) :
    ∃ found, Finds (nextHandles product.continuations) product.page.content.handles [] found ∧
      visitAll (enter (nextHandles product.continuations) (product.handles.length + 1))
        product.page.content.handles [] = some found ∧
      freezeProduct product = some ⟨product.page.rename (numberIn found),
        found.map fun handle =>
          renameItems (numberIn found) (pageOf product.continuations handle)⟩ := by
  have hpoints : ∀ h, nextHandles product.continuations h ≠ [] → h ∈ product.handles := by
    intro h hh
    refine product.finite h ?_
    by_contra hnone
    refine hh ?_
    rw [nextHandles, pageOf, Option.not_isSome_iff_eq_none.mp hnone]
    rfl
  obtain ⟨found, hfound⟩ := visitAll_ends hpoints (Nat.lt_succ_self _) product.page.content.handles
  refine ⟨found, visitAll_spec hfound, hfound, ?_⟩
  have hrender := normalizeRender_normalizes
    (visits_enter product.continuations (product.handles.length + 1))
    (enterPage_enters product.continuations (product.handles.length + 1)) product.page.content
    [] [] List.nodup_nil rfl
  have hempty : (⟨PartialMap.empty, []⟩ : FreezeState) = stateOf [] [] := by
    rw [stateOf, FreezeState.mk.injEq]
    refine ⟨?_, rfl⟩
    funext k
    exact (if_neg List.not_mem_nil).symm
  rw [hfound] at hrender
  rw [freezeProduct, hempty, hrender]
  rfl

theorem canonicalName_inj {i j : Nat} (h : canonicalName i = canonicalName j) : i = j := by
  have hrepr : i.repr = j.repr := by
    refine String.ext (@List.append_cancel_left _ "continuation-".toList _ _ ?_)
    have hlist := congrArg String.toList h
    rwa [canonicalName, canonicalName, String.toList_append, String.toList_append] at hlist
  exact Numbered.repr_injective hrepr

theorem idxOf_map_injOn {f : String → String} {R : String → Prop}
    (hinj : ∀ h k, R h → R k → f h = f k → h = k) {handle : String} (hhandle : R handle) :
    ∀ {found : List String}, (∀ h ∈ found, R h) →
    (found.map f).idxOf (f handle) = found.idxOf handle
  | [], _ => rfl
  | h :: found, hfound => by
      have hrest := idxOf_map_injOn hinj hhandle fun k hk => hfound k (List.mem_cons_of_mem h hk)
      rw [List.map_cons, List.idxOf_cons, List.idxOf_cons, hrest]
      by_cases heq : h = handle
      · rw [heq, beq_self_eq_true, beq_self_eq_true]
      · have hne : f h ≠ f handle := fun himage =>
          heq (hinj h handle (hfound h (List.mem_cons_self ..)) hhandle himage)
        rw [beq_eq_false_iff_ne.mpr heq, beq_eq_false_iff_ne.mpr hne]

theorem renameItems_comp {f g k : String → String} {items : List ValueNode}
    (h : ∀ handle ∈ itemHandles items, g (f handle) = k handle) :
    renameItems g (renameItems f items) = renameItems k items := by
  rw [renameItems_rename]
  exact renameItems_congr items h

/-- What is found is what the content reaches. -/
theorem finds_reached_iff {product : GeneratedProduct} {found : List String}
    (h : Finds (nextHandles product.continuations) product.page.content.handles [] found)
    {handle : String} : handle ∈ found ↔ product.Reached handle := h.mem_iff

variable {p q : GeneratedProduct} {found found' : List String}

/-- A bijection of the handles takes the order of the first visits to the other. -/
theorem SameUpToHandles.frozen_eq (h : SameUpToHandles p q) {depth depth' : Nat}
    (hp : visitAll (enter (nextHandles p.continuations) depth) p.page.content.handles [] =
      some found)
    (hq : visitAll (enter (nextHandles q.continuations) depth') q.page.content.handles [] =
      some found') :
    p.page.rename (numberIn found) = q.page.rename (numberIn found') ∧
      (found.map fun handle => renameItems (numberIn found) (pageOf p.continuations handle)) =
        found'.map fun handle => renameItems (numberIn found') (pageOf q.continuations handle) := by
  obtain ⟨f, hbij, hpage, hpages⟩ := h
  have hfinds := visitAll_spec hp
  have hreached : ∀ handle ∈ found, p.Reached handle := fun handle hh => hfinds.mem_iff.mp hh
  have hinj : ∀ h k, p.Reached h → p.Reached k → f h = f k → h = k :=
    fun h k hh hk heq => hbij.injOn hh hk heq
  have hrenames : Renames (nextHandles p.continuations) (nextHandles q.continuations) f
      p.Reached := by
    refine ⟨hinj, fun h hh => ?_, fun h hh k hk => ?_⟩
    · rw [nextHandles, nextHandles, ← hpages h hh, itemHandles_rename]
    · obtain ⟨start, hstart, hpath⟩ := hh
      exact ⟨start, hstart, .tail hpath hk⟩
  have hhandles : q.page.content.handles = p.page.content.handles.map f := by
    rw [← hpage]
    exact p.page.content.handles_rename f
  have hstarts : ∀ h ∈ p.page.content.handles, p.Reached h := fun h hh => ⟨h, hh, .refl⟩
  have hfound : found' = found.map f := by
    have hp' := discover_mono (Nat.le_max_left depth depth') hp
    have hq' := discover_mono (Nat.le_max_right depth depth') hq
    rw [hhandles, discover_map hrenames hstarts, hp', Option.map_some, Option.some.injEq] at hq'
    exact hq'.symm
  have hnumber : ∀ handle, p.Reached handle →
      numberIn found' (f handle) = numberIn found handle := fun handle hh => by
    rw [numberIn, numberIn, hfound, idxOf_map_injOn hinj hh hreached]
  refine ⟨?_, ?_⟩
  · rw [← hpage]
    simp only [ProductPage.rename, ProductPage.mk.injEq, true_and]
    rw [p.page.content.rename_rename]
    exact (p.page.content.rename_congr fun handle hh => hnumber handle (hstarts handle hh)).symm
  · rw [hfound, List.map_map, ← hfound]
    refine List.map_congr_left fun handle hh => ?_
    rw [Function.comp_apply, ← hpages handle (hreached handle hh)]
    refine (renameItems_comp fun k hk => hnumber k ?_).symm
    exact hreached k (hfinds.closed handle hh List.not_mem_nil k hk)

/-- Where numbers agree, the handles with one number are taken to one another. -/
@[grind =] def pairing (found found' : List String) (handle : String) : String :=
  found'.getD (found.idxOf handle) handle

theorem carries_pairing {hs ks : List String} (hks : ∀ k ∈ ks, k ∈ found') :
    Carries (pairing found found') (numberIn found) (numberIn found') hs ks := by
  intro h _ k hk hnumber
  have hlt : found'.idxOf k < found'.length := List.idxOf_lt_length_of_mem (hks k hk)
  rw [pairing, canonicalName_inj hnumber, List.getD_eq_getElem _ _ hlt, List.getElem_idxOf]

theorem pairing_getElem (hlength : found.length = found'.length) {handle : String}
    (h : handle ∈ found) :
    ∃ hlt : found.idxOf handle < found'.length,
      pairing found found' handle = found'[found.idxOf handle] := by
  have hlt : found.idxOf handle < found'.length := hlength ▸ List.idxOf_lt_length_of_mem h
  exact ⟨hlt, List.getD_eq_getElem _ _ hlt⟩

theorem bijOn_pairing (hlength : found.length = found'.length) (hnodup : found.Nodup)
    (hnodup' : found'.Nodup) :
    Set.BijOn (pairing found found') {h | h ∈ found} {h | h ∈ found'} := by
  refine ⟨fun h hh => ?_, fun h hh k hk heq => ?_, fun k hk => ?_⟩
  · obtain ⟨hlt, hpair⟩ := pairing_getElem hlength hh
    change pairing found found' h ∈ found'
    rw [hpair]
    exact List.getElem_mem hlt
  · obtain ⟨hlt, hpair⟩ := pairing_getElem hlength hh
    obtain ⟨hlt', hpair'⟩ := pairing_getElem hlength hk
    rw [hpair, hpair', hnodup'.getElem_inj_iff] at heq
    exact (List.idxOf_inj hh).mp heq
  · have hlt : found'.idxOf k < found'.length := List.idxOf_lt_length_of_mem hk
    have hlt' : found'.idxOf k < found.length := hlength ▸ hlt
    refine ⟨found[found'.idxOf k], List.getElem_mem hlt', ?_⟩
    rw [pairing, hnodup.idxOf_getElem, List.getD_eq_getElem _ _ hlt, List.getElem_idxOf]

/-- Products that are frozen alike are the same up to the pairing of their handles. -/
theorem sameUpToHandles_of_frozen
    (hp : Finds (nextHandles p.continuations) p.page.content.handles [] found)
    (hq : Finds (nextHandles q.continuations) q.page.content.handles [] found')
    (hpage : p.page.rename (numberIn found) = q.page.rename (numberIn found'))
    (hpages : (found.map fun handle => renameItems (numberIn found)
        (pageOf p.continuations handle)) =
      found'.map fun handle => renameItems (numberIn found') (pageOf q.continuations handle)) :
    SameUpToHandles p q := by
  have hlength : found.length = found'.length := by simpa using congrArg List.length hpages
  have hset : {h | p.Reached h} = {h | h ∈ found} := Set.ext fun _ => (finds_reached_iff hp).symm
  have hset' : {h | q.Reached h} = {h | h ∈ found'} := Set.ext fun _ => (finds_reached_iff hq).symm
  refine ⟨pairing found found', ?_, ?_, fun h hh => ?_⟩
  · rw [hset, hset']
    exact bijOn_pairing hlength (hp.nodup List.nodup_nil) (hq.nodup List.nodup_nil)
  · simp only [ProductPage.rename, ProductPage.mk.injEq] at hpage
    have hcontent := p.page.content.rename_of_eq q.page.content (carries_pairing hq.starts)
      hpage.2.2
    rw [ProductPage.rename, hcontent, hpage.1, hpage.2.1]
  · have hmem : h ∈ found := (finds_reached_iff hp).mpr hh
    obtain ⟨hlt, hpair⟩ := pairing_getElem hlength hmem
    have hlt' : found.idxOf h < found.length := List.idxOf_lt_length_of_mem hmem
    have hitem := congrArg (·[found.idxOf h]?) hpages
    simp only [List.getElem?_map, List.getElem?_eq_getElem hlt, List.getElem?_eq_getElem hlt',
      List.getElem_idxOf, Option.map_some, Option.some.injEq] at hitem
    rw [hpair]
    refine renameItems_of_eq _ _ (carries_pairing fun k hk => ?_) hitem
    exact hq.closed _ (List.getElem_mem hlt) List.not_mem_nil k hk

/-- Freezing ends, and two products are frozen alike exactly if a bijection of their handles takes
one to the other. -/
theorem freezeProduct_eq_iff (p q : FiniteProduct) :
    ∃ f g, freezeProduct p = some f ∧ freezeProduct q = some g ∧
      (f = g ↔ SameUpToHandles p.toGeneratedProduct q.toGeneratedProduct) := by
  obtain ⟨found, hp, hvisit, hfrozen⟩ := freezeProduct_eq p
  obtain ⟨found', hq, hvisit', hfrozen'⟩ := freezeProduct_eq q
  refine ⟨_, _, hfrozen, hfrozen', ?_⟩
  rw [FrozenProduct.mk.injEq]
  constructor
  · rintro ⟨hpage, hpages⟩
    exact sameUpToHandles_of_frozen hp hq hpage hpages
  · intro h
    exact h.frozen_eq hvisit hvisit'

end

/-! ### Traces -/

namespace Comparison

open Tracing (TraceSource TraceKey TraceNode TraceDisposition)

structure TraceIdentity where
  source : TraceSource
  operation : String
  key : TraceKey
  observations : Nat

mutual

/-- The identities of what was executed, and of what was reused. -/
def traceIdentities : TraceNode → List TraceIdentity × List TraceIdentity
  | ⟨_, source, operation, key, disposition, _, observations, children⟩ =>
      let identity : TraceIdentity := ⟨source, operation, key, observations⟩
      let (executed, reused) := childIdentities children
      match disposition with
      | .executed => (identity :: executed, reused)
      | .reused => (executed, identity :: reused)
      | .validated | .cancelled | .observed => (executed, reused)

def childIdentities : List TraceNode → List TraceIdentity × List TraceIdentity
  | [] => ([], [])
  | child :: children =>
      let (executed, reused) := traceIdentities child
      let (executed', reused') := childIdentities children
      (executed ++ executed', reused ++ reused')

end

/-- What two identities must share to cancel. -/
def TraceIdentity.name (identity : TraceIdentity) : TraceSource × String × TraceKey :=
  (identity.source, identity.operation, identity.key)

def TraceIdentity.observed (identity : TraceIdentity) (observations : Nat) : TraceIdentity :=
  { identity with observations := observations }

/-- Cancel the observations of an identity against those that are not matched yet. -/
def cancel (name : TraceSource × String × TraceKey) :
    Nat → List TraceIdentity → Nat × List TraceIdentity
  | 0, unmatched => (0, unmatched)
  | remaining, [] => (remaining, [])
  | remaining, candidate :: unmatched =>
      if candidate.name = name then
        let cancelled := min remaining candidate.observations
        let (left, unmatched) := cancel name (remaining - cancelled) unmatched
        (left, candidate.observed (candidate.observations - cancelled) :: unmatched)
      else
        let (left, unmatched) := cancel name remaining unmatched
        (left, candidate :: unmatched)

@[grind =] def difference : List TraceIdentity → List TraceIdentity → List TraceIdentity
  | [], _ => []
  | identity :: identities, unmatched =>
      let (remaining, unmatched) := cancel identity.name identity.observations unmatched
      if 0 < remaining then
        identity.observed remaining :: difference identities unmatched
      else difference identities unmatched

/-- The observations under a name. -/
@[grind =] def total (name : TraceSource × String × TraceKey) : List TraceIdentity → Nat
  | [] => 0
  | identity :: identities =>
      (if identity.name = name then identity.observations else 0) + total name identities

/-! ### Differences -/

variable {name name' : TraceSource × String × TraceKey}

@[simp] theorem observed_name (identity : TraceIdentity) (observations : Nat) :
    (identity.observed observations).name = identity.name := rfl

@[simp] theorem observed_observations (identity : TraceIdentity) (observations : Nat) :
    (identity.observed observations).observations = observations := rfl

theorem total_cons (name : TraceSource × String × TraceKey) (identity : TraceIdentity)
    (identities : List TraceIdentity) :
    total name (identity :: identities) =
      (if identity.name = name then identity.observations else 0) + total name identities := rfl

theorem total_cons_self (identity : TraceIdentity) (identities : List TraceIdentity) :
    total identity.name (identity :: identities) =
      identity.observations + total identity.name identities := by
  rw [total_cons, if_pos rfl]

theorem total_cons_of_ne {identity : TraceIdentity} (h : identity.name ≠ name)
    (identities : List TraceIdentity) :
    total name (identity :: identities) = total name identities := by
  rw [total_cons, if_neg h, Nat.zero_add]

/-- As much is cancelled as both have, and nothing under another name. -/
theorem cancel_spec (name : TraceSource × String × TraceKey) :
    ∀ (observations : Nat) (unmatched : List TraceIdentity),
    (cancel name observations unmatched).1 = observations - total name unmatched ∧
      total name (cancel name observations unmatched).2 = total name unmatched - observations ∧
      ∀ name', name' ≠ name →
        total name' (cancel name observations unmatched).2 = total name' unmatched
  | 0, unmatched => by
      unfold cancel
      exact ⟨(Nat.zero_sub _).symm, rfl, fun _ _ => rfl⟩
  | observations + 1, [] => ⟨rfl, (Nat.zero_sub _).symm, fun _ _ => rfl⟩
  | observations + 1, candidate :: unmatched => by
      by_cases hname : candidate.name = name
      · subst hname
        -- the candidate loses what is cancelled, the rest cancels what remains
        obtain ⟨hleft, htotal, hother⟩ := cancel_spec candidate.name
          (observations + 1 - min (observations + 1) candidate.observations) unmatched
        simp only [cancel, if_true]
        refine ⟨?_, ?_, fun name' hne => ?_⟩
        · rw [hleft, total_cons_self]
          omega
        · have hself := total_cons_self (candidate.observed
            (candidate.observations - min (observations + 1) candidate.observations))
            (cancel candidate.name
              (observations + 1 - min (observations + 1) candidate.observations) unmatched).2
          rw [observed_name, observed_observations] at hself
          rw [hself, htotal, total_cons_self]
          omega
        · rw [total_cons_of_ne (Ne.symm hne)]
          refine (total_cons_of_ne ?_ _).trans (hother name' hne)
          exact Ne.symm hne
      · obtain ⟨hleft, htotal, hother⟩ := cancel_spec name (observations + 1) unmatched
        simp only [cancel, if_neg hname]
        refine ⟨?_, ?_, fun name' hne => ?_⟩
        · rw [hleft, total_cons_of_ne hname]
        · rw [total_cons_of_ne hname, htotal, total_cons_of_ne hname]
        · rw [total_cons, total_cons, hother name' hne]

/-- Under each name a difference has what the left has more than the right. -/
theorem total_difference (name : TraceSource × String × TraceKey) :
    ∀ (identities unmatched : List TraceIdentity),
      total name (difference identities unmatched) = total name identities - total name unmatched
  | [], unmatched => (Nat.zero_sub _).symm
  | identity :: identities, unmatched => by
      obtain ⟨hleft, htotal, hother⟩ :=
        cancel_spec identity.name identity.observations unmatched
      have hrest := total_difference name identities
        (cancel identity.name identity.observations unmatched).2
      have hstep : total name (difference (identity :: identities) unmatched) =
          (if identity.name = name then
            (cancel identity.name identity.observations unmatched).1 else 0) +
          total name (difference identities
            (cancel identity.name identity.observations unmatched).2) := by
        simp only [difference]
        split
        · rw [total, observed_name, observed_observations]
        · next hzero =>
          rw [Nat.eq_zero_of_not_pos hzero, ite_self, Nat.zero_add]
      rw [hstep, hrest, total, hleft]
      by_cases hname : identity.name = name
      · subst hname
        rw [if_pos rfl, if_pos rfl, htotal]
        omega
      · rw [if_neg hname, if_neg hname, hother name (Ne.symm hname), Nat.zero_add, Nat.zero_add]

theorem difference_pos : ∀ {identities unmatched : List TraceIdentity},
    ∀ identity ∈ difference identities unmatched, 0 < identity.observations
  | [], _, _, h => absurd h List.not_mem_nil
  | identity :: identities, unmatched, identity', h => by
      simp only [difference] at h
      split at h
      · next hpos =>
        obtain rfl | h := List.mem_cons.mp h
        · exact hpos
        · exact difference_pos identity' h
      · exact difference_pos identity' h

theorem total_pos_of_mem {identity : TraceIdentity} : ∀ {identities : List TraceIdentity},
    identity ∈ identities → 0 < identity.observations → 0 < total identity.name identities
  | [], h, _ => absurd h List.not_mem_nil
  | identity' :: identities, h, hpos => by
      rw [total]
      obtain rfl | h := List.mem_cons.mp h
      · rw [if_pos rfl]
        omega
      · exact Nat.lt_of_lt_of_le (total_pos_of_mem h hpos) (Nat.le_add_left _ _)

/-- Nothing is left exactly if the right has at least as much under every name. -/
theorem difference_eq_nil_iff {identities unmatched : List TraceIdentity} :
    difference identities unmatched = [] ↔
      ∀ name, total name identities ≤ total name unmatched := by
  constructor
  · intro hnil name
    have htotal := total_difference name identities unmatched
    rw [hnil] at htotal
    exact Nat.le_of_sub_eq_zero htotal.symm
  · intro hle
    refine List.eq_nil_iff_forall_not_mem.mpr fun identity hmem => ?_
    have hpos := total_pos_of_mem hmem (difference_pos identity hmem)
    rw [total_difference, Nat.sub_eq_zero_of_le (hle identity.name)] at hpos
    exact Nat.lt_irrefl 0 hpos

/-! ### Comparing -/

structure RetainedProduct where
  frozen : FrozenProduct
  runId : Option RunHandle

structure RunComparison where
  fromRevision : String
  toRevision : String
  symbol : String
  product : String
  valueChanged : Bool
  executedOnlyBefore : List TraceIdentity
  executedOnlyAfter : List TraceIdentity
  reusedOnlyBefore : List TraceIdentity
  reusedOnlyAfter : List TraceIdentity

/-- The products that were inspected, by revision, symbol and product, and the traces of runs. -/
structure Retained where
  products : PartialMap (String × String × String) RetainedProduct
  runs : PartialMap RunHandle TraceNode

/-- The identities of a run; none without a run or its trace. -/
def Retained.trace (retained : Retained) (product : RetainedProduct) :
    List TraceIdentity × List TraceIdentity :=
  ((product.runId.bind retained.runs).map traceIdentities).getD ([], [])

/-- The comparison of two products that were found. -/
def Retained.compareProducts (retained : Retained) (from_ to_ symbol product : String)
    (before after : RetainedProduct) : RunComparison :=
  let beforeTrace := retained.trace before
  let afterTrace := retained.trace after
  { fromRevision := from_
    toRevision := to_
    symbol
    product
    valueChanged := decide (before.frozen ≠ after.frozen)
    executedOnlyBefore := difference beforeTrace.1 afterTrace.1
    executedOnlyAfter := difference afterTrace.1 beforeTrace.1
    reusedOnlyBefore := difference beforeTrace.2 afterTrace.2
    reusedOnlyAfter := difference afterTrace.2 beforeTrace.2 }

def Retained.compare (retained : Retained) (from_ to_ symbol product : String) :
    Except ApiError RunComparison := do
  let some before := retained.products (from_, symbol, product)
    | throw ⟨"comparison-value-not-found",
        "the product was not inspected in the starting revision"⟩
  let some after := retained.products (to_, symbol, product)
    | throw ⟨"comparison-value-not-found", "the product was not inspected in the ending revision"⟩
  return retained.compareProducts from_ to_ symbol product before after

/-- What a comparison reports is what one side has more than the other, name by name. -/
structure RunComparison.Exact (comparison : RunComparison)
    (before after : List TraceIdentity × List TraceIdentity) : Prop where
  executedBefore : ∀ name, total name comparison.executedOnlyBefore =
    total name before.1 - total name after.1
  executedAfter : ∀ name, total name comparison.executedOnlyAfter =
    total name after.1 - total name before.1
  reusedBefore : ∀ name, total name comparison.reusedOnlyBefore =
    total name before.2 - total name after.2
  reusedAfter : ∀ name, total name comparison.reusedOnlyAfter =
    total name after.2 - total name before.2
  executed : comparison.executedOnlyBefore = [] ∧ comparison.executedOnlyAfter = [] ↔
    ∀ name, total name before.1 = total name after.1
  reused : comparison.reusedOnlyBefore = [] ∧ comparison.reusedOnlyAfter = [] ↔
    ∀ name, total name before.2 = total name after.2

theorem differences_eq_nil_iff {left right : List TraceIdentity} :
    difference left right = [] ∧ difference right left = [] ↔
      ∀ name, total name left = total name right := by
  rw [difference_eq_nil_iff, difference_eq_nil_iff]
  constructor
  · rintro ⟨hle, hge⟩ name
    exact Nat.le_antisymm (hle name) (hge name)
  · intro heq
    exact ⟨fun name => Nat.le_of_eq (heq name), fun name => Nat.le_of_eq (heq name).symm⟩

theorem Retained.compareProducts_exact (retained : Retained) (from_ to_ symbol product : String)
    (before after : RetainedProduct) :
    (retained.compareProducts from_ to_ symbol product before after).Exact
      (retained.trace before) (retained.trace after) where
  executedBefore name := total_difference name _ _
  executedAfter name := total_difference name _ _
  reusedBefore name := total_difference name _ _
  reusedAfter name := total_difference name _ _
  executed := differences_eq_nil_iff
  reused := differences_eq_nil_iff

/-- Two products can always be frozen and compared.  Their value has changed exactly if they differ
by more than their handles, and the lists are exact. -/
theorem compare_exact (p q : FiniteProduct) (run run' : Option RunHandle) (retained : Retained)
    (from_ to_ symbol product : String) :
    ∃ f g, freezeProduct p = some f ∧ freezeProduct q = some g ∧
      (f = g ↔ SameUpToHandles p.toGeneratedProduct q.toGeneratedProduct) ∧
      ((retained.compareProducts from_ to_ symbol product ⟨f, run⟩ ⟨g, run'⟩).valueChanged = true ↔
        ¬ SameUpToHandles p.toGeneratedProduct q.toGeneratedProduct) ∧
      (retained.compareProducts from_ to_ symbol product ⟨f, run⟩ ⟨g, run'⟩).Exact
        (retained.trace ⟨f, run⟩) (retained.trace ⟨g, run'⟩) := by
  obtain ⟨f, g, hf, hg, heq⟩ := freezeProduct_eq_iff p q
  refine ⟨f, g, hf, hg, heq, ?_, ?_⟩
  · rw [← heq]
    exact decide_eq_true_iff
  · exact retained.compareProducts_exact from_ to_ symbol product ⟨f, run⟩ ⟨g, run'⟩

end Comparison

end Sage.Inspector
