import Sage.Inspector.Reflection

/-!
# Inspector — reflection up to handles

The handles in a reflected value come from the prefix of the context.  Two contexts with the same
limits whose resolvers agree on the symbols of a value reflect it alike, except for the handles.

* `ValueNode.erased` — a node with every handle replaced by the same one.
* `boundNode_erased` — the output budget does not look at handles.
* `reflected_erased` — the two passes together.
-/

namespace Sage.Inspector

mutual

/-- A node with its handles replaced by the empty one. -/
def ValueNode.erased : ValueNode → ValueNode
  | .record typeName fields => .record typeName (ValueNode.erasedFields fields)
  | .variant enumName variantName fields =>
      .variant enumName variantName (ValueNode.erasedFields fields)
  | .sequence typeName items => .sequence typeName (ValueNode.erasedItems items)
  | .scalar typeName value => .scalar typeName value
  | .reference target => .reference target
  | .cycle identity => .cycle identity
  | .truncated summary continuation => .truncated summary (continuation.map fun _ => "")

def ValueNode.erasedFields : List (ValueField ValueNode) → List (ValueField ValueNode)
  | [] => []
  | ⟨name, value⟩ :: fields => ⟨name, value.erased⟩ :: ValueNode.erasedFields fields

def ValueNode.erasedItems : List ValueNode → List ValueNode
  | [] => []
  | item :: items => item.erased :: ValueNode.erasedItems items

end

attribute [simp] ValueNode.erased ValueNode.erasedFields ValueNode.erasedItems

mutual

@[simp] theorem ValueNode.erased_erased : ∀ node : ValueNode, node.erased.erased = node.erased
  | .record typeName fields => by simp [erasedFields_erasedFields fields]
  | .variant enumName variantName fields => by simp [erasedFields_erasedFields fields]
  | .sequence typeName items => by simp [erasedItems_erasedItems items]
  | .scalar typeName value => by simp
  | .reference target => by simp
  | .cycle identity => by simp
  | .truncated summary continuation => by cases continuation <;> simp

theorem ValueNode.erasedFields_erasedFields : ∀ fields : List (ValueField ValueNode),
    ValueNode.erasedFields (ValueNode.erasedFields fields) = ValueNode.erasedFields fields
  | [] => by simp
  | ⟨name, value⟩ :: fields => by
      simp [ValueNode.erased_erased value, erasedFields_erasedFields fields]

theorem ValueNode.erasedItems_erasedItems : ∀ items : List ValueNode,
    ValueNode.erasedItems (ValueNode.erasedItems items) = ValueNode.erasedItems items
  | [] => by simp
  | item :: items => by simp [ValueNode.erased_erased item, erasedItems_erasedItems items]

end

theorem ValueNode.isEmpty_erasedFields (fields : List (ValueField ValueNode)) :
    (ValueNode.erasedFields fields).isEmpty = fields.isEmpty := by
  cases fields <;> simp

theorem ValueNode.isEmpty_erasedItems (items : List ValueNode) :
    (ValueNode.erasedItems items).isEmpty = items.isEmpty := by
  cases items <;> simp

/-- Two stores are about to give out the same number and have room for as many nodes. -/
structure SameCounters (s t : ContinuationStore) : Prop where
  next : s.next = t.next
  remainingNodes : s.remainingNodes = t.remainingNodes

theorem SameCounters.refl (s : ContinuationStore) : SameCounters s s := ⟨rfl, rfl⟩

/-- Two results are the same up to handles, with the same left of the budget. -/
structure SameOutcome {α : Type} (erase : α → α) (r r' : α × Nat × ContinuationStore) : Prop where
  value : erase r.1 = erase r'.1
  budget : r.2.1 = r'.2.1
  store : SameCounters r.2.2 r'.2.2

namespace ReflectionContext

/-- Two cutoffs leave the same up to handles, and the second does not look at them. -/
def SameCutoff (cutoff cutoff' : String → ValueNode → ContinuationStore →
    ValueNode × ContinuationStore) : Prop :=
  ∀ summary value s s', SameCounters s s' →
    (cutoff summary value s).1.erased = (cutoff' summary value.erased s').1.erased ∧
      SameCounters (cutoff summary value s).2 (cutoff' summary value.erased s').2

section Bound

variable {cutoff cutoff' : String → ValueNode → ContinuationStore → ValueNode × ContinuationStore}
  {s s' : ContinuationStore}

mutual

theorem boundNode_erased (hcut : SameCutoff cutoff cutoff') : ∀ node budget s s',
    SameCounters s s' → SameOutcome ValueNode.erased (boundNode cutoff node budget s)
      (boundNode cutoff' node.erased budget s')
  | node, 0, s, s', hs => by
      cases node <;> exact ⟨rfl, rfl, hs⟩
  | .record typeName fields, budget + 1, s, s', hs => by
      rw [ValueNode.erased, boundNode, boundNode, ValueNode.isEmpty_erasedFields]
      split
      · have h := hcut "nested value omitted" (.record typeName fields) s s' hs
        rw [ValueNode.erased] at h
        exact ⟨h.1, rfl, h.2⟩
      · have h := boundFields_erased hcut (.record typeName) (fun _ => by simp) fields budget s s' hs
        exact ⟨by simpa using h.value, h.budget, h.store⟩
  | .variant enumName variantName fields, budget + 1, s, s', hs => by
      rw [ValueNode.erased, boundNode, boundNode, ValueNode.isEmpty_erasedFields]
      split
      · have h := hcut "nested value omitted" (.variant enumName variantName fields) s s' hs
        rw [ValueNode.erased] at h
        exact ⟨h.1, rfl, h.2⟩
      · have h := boundFields_erased hcut (.variant enumName variantName) (fun _ => by simp)
          fields budget s s' hs
        exact ⟨by simpa using h.value, h.budget, h.store⟩
  | .sequence typeName items, budget + 1, s, s', hs => by
      rw [ValueNode.erased, boundNode, boundNode, ValueNode.isEmpty_erasedItems]
      split
      · have h := hcut "nested value omitted" (.sequence typeName items) s s' hs
        rw [ValueNode.erased] at h
        exact ⟨h.1, rfl, h.2⟩
      · have h := boundItems_erased hcut (.sequence typeName) (fun _ => by simp) items budget s s' hs
        exact ⟨by simpa using h.value, h.budget, h.store⟩
  | .scalar typeName value, budget + 1, s, s', hs => ⟨by simp [boundNode], rfl, hs⟩
  | .reference target, budget + 1, s, s', hs => ⟨by simp [boundNode], rfl, hs⟩
  | .cycle identity, budget + 1, s, s', hs => ⟨by simp [boundNode], rfl, hs⟩
  | .truncated summary continuation, budget + 1, s, s', hs =>
      ⟨by cases continuation <;> simp [boundNode], rfl, hs⟩

theorem boundFields_erased (hcut : SameCutoff cutoff cutoff')
    (omittedNode : List (ValueField ValueNode) → ValueNode)
    (homit : ∀ fields,
      (omittedNode fields).erased = omittedNode (ValueNode.erasedFields fields)) :
    ∀ fields budget s s', SameCounters s s' →
      SameOutcome ValueNode.erasedFields (boundFields cutoff omittedNode fields budget s)
        (boundFields cutoff' omittedNode (ValueNode.erasedFields fields) budget s')
  | [], budget, s, s', hs => ⟨rfl, rfl, hs⟩
  | ⟨name, value⟩ :: source, budget, s, s', hs => by
      rw [ValueNode.erasedFields, boundFields, boundFields, ValueNode.isEmpty_erasedFields]
      split
      · split
        · have h := hcut "additional fields omitted" (omittedNode (⟨name, value⟩ :: source)) s s' hs
          rw [homit, ValueNode.erasedFields] at h
          exact ⟨by simp [h.1], rfl, h.2⟩
        · exact ⟨rfl, rfl, hs⟩
      · split
        · exact ⟨rfl, rfl, hs⟩
        · have h₁ := boundNode_erased hcut value
            (budget - if !source.isEmpty then 1 else 0) s s' hs
          have h₂ := boundFields_erased hcut omittedNode homit source
            ((boundNode cutoff value (budget - if !source.isEmpty then 1 else 0) s).2.1 +
              if !source.isEmpty then 1 else 0) _ _ h₁.store
          rw [h₁.budget] at h₂
          refine ⟨?_, ?_, ?_⟩
          · simp only [ValueNode.erasedFields, h₁.value, h₁.budget, h₂.value]
          · simp only [h₁.budget, h₂.budget]
          · simp only [h₁.budget, h₂.store]

theorem boundItems_erased (hcut : SameCutoff cutoff cutoff')
    (omittedNode : List ValueNode → ValueNode)
    (homit : ∀ items, (omittedNode items).erased = omittedNode (ValueNode.erasedItems items)) :
    ∀ items budget s s', SameCounters s s' →
      SameOutcome ValueNode.erasedItems (boundItems cutoff omittedNode items budget s)
        (boundItems cutoff' omittedNode (ValueNode.erasedItems items) budget s')
  | [], budget, s, s', hs => ⟨rfl, rfl, hs⟩
  | item :: source, budget, s, s', hs => by
      rw [ValueNode.erasedItems, boundItems, boundItems, ValueNode.isEmpty_erasedItems]
      split
      · split
        · have h := hcut "additional sequence elements omitted" (omittedNode (item :: source)) s s' hs
          rw [homit, ValueNode.erasedItems] at h
          exact ⟨by simp [h.1], rfl, h.2⟩
        · exact ⟨rfl, rfl, hs⟩
      · split
        · exact ⟨rfl, rfl, hs⟩
        · have h₁ := boundNode_erased hcut item
            (budget - if !source.isEmpty then 1 else 0) s s' hs
          have h₂ := boundItems_erased hcut omittedNode homit source
            ((boundNode cutoff item (budget - if !source.isEmpty then 1 else 0) s).2.1 +
              if !source.isEmpty then 1 else 0) _ _ h₁.store
          rw [h₁.budget] at h₂
          refine ⟨?_, ?_, ?_⟩
          · simp only [ValueNode.erasedItems, h₁.value, h₁.budget, h₂.value]
          · simp only [h₁.budget, h₂.budget]
          · simp only [h₁.budget, h₂.store]

end

end Bound

/-- Nodes that are the same up to handles are cut off alike. -/
theorem boundNode_congr {cutoff cutoff' : String → ValueNode → ContinuationStore →
    ValueNode × ContinuationStore} (hcut : SameCutoff cutoff cutoff')
    (hcut' : SameCutoff cutoff' cutoff') {node node' : ValueNode} (hnode : node.erased = node'.erased)
    (budget : Nat) {s s' : ContinuationStore} (hs : SameCounters s s') :
    SameOutcome ValueNode.erased (boundNode cutoff node budget s)
      (boundNode cutoff' node' budget s') := by
  have h := boundNode_erased hcut node budget s s' hs
  have h' := boundNode_erased hcut' node' budget s' s' (.refl s')
  rw [hnode] at h
  exact ⟨h.value.trans h'.value.symm, h.budget.trans h'.budget.symm,
    ⟨h.store.next.trans h'.store.next.symm,
      h.store.remainingNodes.trans h'.store.remainingNodes.symm⟩⟩

theorem sameCutoff_terminal : SameCutoff terminalCutoff terminalCutoff :=
  fun _ _ _ _ hs => ⟨rfl, hs⟩

/-- Which handle a page is kept under does not show. -/
theorem storeContinuation_congr (summary handle handle' : String) (budget : Nat)
    {node node' : ValueNode} (hnode : node.erased = node'.erased) {s s' : ContinuationStore}
    (hs : SameCounters s s') :
    (storeContinuation summary handle budget node s).1.erased =
        (storeContinuation summary handle' budget node' s').1.erased ∧
      SameCounters (storeContinuation summary handle budget node s).2
        (storeContinuation summary handle' budget node' s').2 := by
  have h := boundNode_congr sameCutoff_terminal sameCutoff_terminal hnode budget hs
  exact ⟨rfl, ⟨h.store.next, h.store.remainingNodes⟩⟩

theorem freezeContinuation_congr (cx cx' : ReflectionContext) (summary : String)
    {node node' : ValueNode} (hnode : node.erased = node'.erased) {s s' : ContinuationStore}
    (hs : SameCounters s s') :
    (cx.freezeContinuation summary node s).1.erased =
        (cx'.freezeContinuation summary node' s').1.erased ∧
      SameCounters (cx.freezeContinuation summary node s).2
        (cx'.freezeContinuation summary node' s').2 := by
  rw [freezeContinuation, freezeContinuation, reserveContinuation, reserveContinuation,
    ← hs.remainingNodes, ← hs.next]
  by_cases hpos : 0 < s.remainingNodes
  · simp only [hpos, if_true]
    exact storeContinuation_congr _ _ _ _ hnode ⟨rfl, rfl⟩
  · simp only [hpos, if_false]
    exact ⟨trivial, hs⟩

theorem sameCutoff_freeze (cx cx' : ReflectionContext) :
    SameCutoff cx.freezeContinuation cx'.freezeContinuation := by
  intro summary value s s' hs
  exact cx.freezeContinuation_congr cx' summary (ValueNode.erased_erased value).symm hs

theorem finish_congr {cx cx' : ReflectionContext} (hmax : cx.maxNodes = cx'.maxNodes)
    {node node' : ValueNode} (hnode : node.erased = node'.erased) {s s' : ContinuationStore}
    (hs : SameCounters s s') :
    (cx.finish node s).1.erased = (cx'.finish node' s').1.erased := by
  rw [finish, finish, ← hmax]
  split
  · exact (cx.freezeContinuation_congr cx' _ hnode hs).1
  · exact (boundNode_congr (cx.sameCutoff_freeze cx') (cx'.sameCutoff_freeze cx') hnode cx.maxNodes
      hs).value

end ReflectionContext

/-! ### Values as two hosts print them -/

mutual

/-- A value whose symbols without a reference are printed by `debug`. -/
def Reflectable.printing (debug : ReferenceKey → String) : Reflectable → Reflectable
  | .node summary body => .node summary (body.printing debug)
  | .stashEntry identity body => .stashEntry identity (body.printing debug)
  | .record typeName fields => .record typeName (Reflectable.printingFields debug fields)
  | .variant enumName variantName fields =>
      .variant enumName variantName (Reflectable.printingFields debug fields)
  | .sequence typeName items => .sequence typeName (Reflectable.printingItems debug items)
  | .symbol key _ => .symbol key (debug key)
  | .scalar typeName value => .scalar typeName value

def Reflectable.printingFields (debug : ReferenceKey → String) :
    List (ValueField Reflectable) → List (ValueField Reflectable)
  | [] => []
  | ⟨name, value⟩ :: fields => ⟨name, value.printing debug⟩ :: printingFields debug fields

def Reflectable.printingItems (debug : ReferenceKey → String) :
    List Reflectable → List Reflectable
  | [] => []
  | item :: items => item.printing debug :: printingItems debug items

end

mutual

/-- The symbols in a value. -/
def Reflectable.symbols : Reflectable → List ReferenceKey
  | .node _ body => body.symbols
  | .stashEntry _ body => body.symbols
  | .record _ fields => Reflectable.symbolsOfFields fields
  | .variant _ _ fields => Reflectable.symbolsOfFields fields
  | .sequence _ items => Reflectable.symbolsOfItems items
  | .symbol key _ => [key]
  | .scalar _ _ => []

def Reflectable.symbolsOfFields : List (ValueField Reflectable) → List ReferenceKey
  | [] => []
  | ⟨_, value⟩ :: fields => value.symbols ++ symbolsOfFields fields

def Reflectable.symbolsOfItems : List Reflectable → List ReferenceKey
  | [] => []
  | item :: items => item.symbols ++ symbolsOfItems items

end

/-- Two states of a reflection differ in the pages they keep only. -/
structure SameState (state state' : ReflectionState) : Prop where
  counters : SameCounters state.continuations state'.continuations
  remainingBuildNodes : state.remainingBuildNodes = state'.remainingBuildNodes
  activeStashEntries : state.activeStashEntries = state'.activeStashEntries

/-- Two contexts cut off alike. -/
structure SameLimits (cx cx' : ReflectionContext) : Prop where
  maxDepth : cx.maxDepth = cx'.maxDepth
  maxNodes : cx.maxNodes = cx'.maxNodes
  depth : cx.depth = cx'.depth
  allowContinuations : cx.allowContinuations = cx'.allowContinuations

/-- A symbol looks the same: it has the same reference, or none and the same debug text. -/
def SameSymbol (resolver resolver' : ReferenceKey → Option SymbolReference)
    (debug debug' : ReferenceKey → String) (key : ReferenceKey) : Prop :=
  resolver key = resolver' key ∧ (resolver key = none → debug key = debug' key)

namespace ReflectionContext

variable {debug debug' : ReferenceKey → String}

mutual

theorem reflect_congr : ∀ (value : Reflectable) (cx cx' : ReflectionContext) state state',
    SameLimits cx cx' → SameState state state' →
      (∀ key ∈ value.symbols, SameSymbol cx.resolver cx'.resolver debug debug' key) →
      (cx.reflect (value.printing debug) state).1.erased =
          (cx'.reflect (value.printing debug') state').1.erased ∧
        SameState (cx.reflect (value.printing debug) state).2
          (cx'.reflect (value.printing debug') state').2
  | .node summary body, cx, cx', state, state', hcx, hs, hkeys => by
      rw [Reflectable.symbols] at hkeys
      rw [Reflectable.printing, Reflectable.printing, reflect, reflect, ← hs.remainingBuildNodes,
        ← hcx.maxDepth, ← hcx.depth, ← hcx.allowContinuations]
      split
      · exact ⟨rfl, hs⟩
      split
      · split
        · by_cases hpos : 0 < state.continuations.remainingNodes
          · simp only [reserveContinuation, ← hs.counters.remainingNodes, hpos, if_true]
            -- the page is reflected from depth 0 and then kept under the handle of its context
            have h₁ := reflect_congr body { cx with depth := 0, allowContinuations := false }
              { cx' with depth := 0, allowContinuations := false }
              ⟨⟨state.continuations.next + 1, 0, state.continuations.values⟩,
                state.remainingBuildNodes - 1, state.activeStashEntries⟩
              ⟨⟨state'.continuations.next + 1, 0, state'.continuations.values⟩,
                state.remainingBuildNodes - 1, state'.activeStashEntries⟩
              ⟨hcx.maxDepth, hcx.maxNodes, rfl, rfl⟩
              ⟨⟨congrArg (· + 1) hs.counters.next, rfl⟩, rfl, hs.activeStashEntries⟩ hkeys
            have h₂ := storeContinuation_congr summary
              (cx.continuationPrefix ++ "_" ++ state.continuations.next.repr)
              (cx'.continuationPrefix ++ "_" ++ state'.continuations.next.repr)
              state.continuations.remainingNodes h₁.1 h₁.2.counters
            rw [← hcx.maxDepth] at h₁ h₂
            exact ⟨h₂.1, ⟨h₂.2, h₁.2.remainingBuildNodes, h₁.2.activeStashEntries⟩⟩
          · simp only [reserveContinuation, ← hs.counters.remainingNodes, hpos, if_false]
            exact ⟨trivial, ⟨hs.counters, rfl, hs.activeStashEntries⟩⟩
        · exact ⟨rfl, ⟨hs.counters, rfl, hs.activeStashEntries⟩⟩
      · exact reflect_congr body _ _ _ _ ⟨rfl, hcx.maxNodes, rfl, rfl⟩
          ⟨hs.counters, rfl, hs.activeStashEntries⟩ hkeys
  | .stashEntry identity body, cx, cx', state, state', hcx, hs, hkeys => by
      rw [Reflectable.symbols] at hkeys
      rw [Reflectable.printing, Reflectable.printing, reflect, reflect, ← hs.activeStashEntries]
      split
      · exact ⟨rfl, hs⟩
      · have h := reflect_congr body cx cx'
          { state with activeStashEntries := identity :: state.activeStashEntries }
          { state' with activeStashEntries := identity :: state.activeStashEntries } hcx
          ⟨hs.counters, hs.remainingBuildNodes, rfl⟩ hkeys
        exact ⟨h.1, ⟨h.2.counters, h.2.remainingBuildNodes, congrArg (·.erase identity) h.2.activeStashEntries⟩⟩
  | .record typeName fields, cx, cx', state, state', hcx, hs, hkeys => by
      rw [Reflectable.symbols] at hkeys
      have h := reflectFields_congr fields cx cx' state state' hcx hs hkeys
      rw [Reflectable.printing, Reflectable.printing, reflect, reflect]
      exact ⟨by simpa using h.1, h.2⟩
  | .variant enumName variantName fields, cx, cx', state, state', hcx, hs, hkeys => by
      rw [Reflectable.symbols] at hkeys
      have h := reflectFields_congr fields cx cx' state state' hcx hs hkeys
      rw [Reflectable.printing, Reflectable.printing, reflect, reflect]
      exact ⟨by simpa using h.1, h.2⟩
  | .sequence typeName items, cx, cx', state, state', hcx, hs, hkeys => by
      rw [Reflectable.symbols] at hkeys
      have h := reflectItems_congr items cx cx' state state' hcx hs hkeys
      rw [Reflectable.printing, Reflectable.printing, reflect, reflect]
      exact ⟨by simpa using h.1, h.2⟩
  | .symbol key unresolved, cx, cx', state, state', hcx, hs, hkeys => by
      obtain ⟨hresolver, hdebug⟩ := hkeys key (by simp [Reflectable.symbols])
      rw [Reflectable.printing, Reflectable.printing, reflect, reflect, ← hresolver]
      cases h : cx.resolver key with
      | none => exact ⟨by simp [hdebug h], hs⟩
      | some target => exact ⟨by simp, hs⟩
  | .scalar typeName value, cx, cx', state, state', hcx, hs, hkeys => by
      rw [Reflectable.printing, Reflectable.printing, reflect, reflect]
      exact ⟨rfl, hs⟩

theorem reflectFields_congr : ∀ (fields : List (ValueField Reflectable))
    (cx cx' : ReflectionContext) state state', SameLimits cx cx' → SameState state state' →
      (∀ key ∈ Reflectable.symbolsOfFields fields,
        SameSymbol cx.resolver cx'.resolver debug debug' key) →
      ValueNode.erasedFields (cx.reflectFields (Reflectable.printingFields debug fields) state).1 =
          ValueNode.erasedFields
            (cx'.reflectFields (Reflectable.printingFields debug' fields) state').1 ∧
        SameState (cx.reflectFields (Reflectable.printingFields debug fields) state).2
          (cx'.reflectFields (Reflectable.printingFields debug' fields) state').2
  | [], cx, cx', state, state', hcx, hs, hkeys => by
      rw [Reflectable.printingFields, Reflectable.printingFields, reflectFields, reflectFields]
      exact ⟨rfl, hs⟩
  | ⟨name, value⟩ :: fields, cx, cx', state, state', hcx, hs, hkeys => by
      rw [Reflectable.symbolsOfFields, List.forall_mem_append] at hkeys
      have h₁ := reflect_congr value cx cx' state state' hcx hs hkeys.1
      have h₂ := reflectFields_congr fields cx cx' _ _ hcx h₁.2 hkeys.2
      rw [Reflectable.printingFields, Reflectable.printingFields, reflectFields, reflectFields]
      exact ⟨by simp [h₁.1, h₂.1], h₂.2⟩

theorem reflectItems_congr : ∀ (items : List Reflectable) (cx cx' : ReflectionContext) state
    state', SameLimits cx cx' → SameState state state' →
      (∀ key ∈ Reflectable.symbolsOfItems items,
        SameSymbol cx.resolver cx'.resolver debug debug' key) →
      ValueNode.erasedItems (cx.reflectItems (Reflectable.printingItems debug items) state).1 =
          ValueNode.erasedItems
            (cx'.reflectItems (Reflectable.printingItems debug' items) state').1 ∧
        SameState (cx.reflectItems (Reflectable.printingItems debug items) state).2
          (cx'.reflectItems (Reflectable.printingItems debug' items) state').2
  | [], cx, cx', state, state', hcx, hs, hkeys => by
      rw [Reflectable.printingItems, Reflectable.printingItems, reflectItems, reflectItems]
      exact ⟨rfl, hs⟩
  | item :: items, cx, cx', state, state', hcx, hs, hkeys => by
      rw [Reflectable.symbolsOfItems, List.forall_mem_append] at hkeys
      have h₁ := reflect_congr item cx cx' state state' hcx hs hkeys.1
      have h₂ := reflectItems_congr items cx cx' _ _ hcx h₁.2 hkeys.2
      rw [Reflectable.printingItems, Reflectable.printingItems, reflectItems, reflectItems,
        ← hs.remainingBuildNodes]
      split
      · exact ⟨rfl, hs⟩
      · exact ⟨by simp [h₁.1, h₂.1], h₂.2⟩

end

/-- The value that a request shows does not depend on the prefix of its handles, and depends on the
resolver and on what is printed through the symbols of the value only. -/
theorem reflected_congr (maxDepth maxNodes : Nat) (p q : String)
    {resolver resolver' : ReferenceKey → Option SymbolReference} {value : Reflectable}
    (hkeys : ∀ key ∈ value.symbols, SameSymbol resolver resolver' debug debug' key) :
    (reflected maxDepth maxNodes p resolver (value.printing debug)).1.erased =
      (reflected maxDepth maxNodes q resolver' (value.printing debug')).1.erased := by
  have hcx : SameLimits (withContinuationPrefix maxDepth maxNodes p resolver).1
      (withContinuationPrefix maxDepth maxNodes q resolver').1 := ⟨rfl, rfl, rfl, rfl⟩
  have hstate : SameState (withContinuationPrefix maxDepth maxNodes p resolver).2
      (withContinuationPrefix maxDepth maxNodes q resolver').2 := ⟨⟨rfl, rfl⟩, rfl, rfl⟩
  have h := reflect_congr value _ _ _ _ hcx hstate hkeys
  exact finish_congr hcx.maxNodes h.1 h.2.counters

end ReflectionContext

end Sage.Inspector
