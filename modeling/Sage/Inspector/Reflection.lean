import Sage.Library.PartialMap

/-!
# Inspector — reflected values

A product shows a value of the compiler as a tree of nodes.  The tree is cut off below a depth and
after a number of nodes; what is cut off first is kept as a continuation page, which a handle in
the tree names.

* `Reflectable` — what the implementations of `Reflect` ask the context for.
* `ReflectionContext.reflect`, `ReflectionContext.finish` — the two passes.
* `reflected_sound` — every handle in the result or in a page names a page.
-/

namespace Sage.Inspector

/-- A value under a name. -/
structure ValueField (α : Type) where
  name : String
  value : α
deriving DecidableEq

inductive ScalarValue where
  | null
  | bool (value : Bool)
  | number (value : Int)
  | string (value : String)
deriving DecidableEq

structure Badge where
  label : String
  tone : String
deriving DecidableEq

structure SymbolPresentation where
  eyebrow : Option String
  badges : List Badge
deriving DecidableEq

structure SymbolReference where
  path : String
  label : String
  presentation : SymbolPresentation
deriving DecidableEq

structure ReferenceKey where
  family : String
  id : Nat
deriving DecidableEq

inductive ValueNode where
  | record (typeName : String) (fields : List (ValueField ValueNode))
  | variant (enumName variantName : String) (fields : List (ValueField ValueNode))
  | sequence (typeName : String) (items : List ValueNode)
  | scalar (typeName : String) (value : ScalarValue)
  | reference (target : SymbolReference)
  | cycle (identity : String)
  | truncated (summary : String) (continuation : Option String)

/-- What the implementations of `Reflect` do with the context.  Only `node` and `stashEntry` call
it; a value that the resolver describes is built from the other forms alone. -/
inductive Reflectable where
  | node (summary : String) (body : Reflectable)
  | stashEntry (identity : String) (body : Reflectable)
  | record (typeName : String) (fields : List (ValueField Reflectable))
  | variant (enumName variantName : String) (fields : List (ValueField Reflectable))
  | sequence (typeName : String) (items : List Reflectable)
  | symbol (key : ReferenceKey) (unresolved : String)
  | scalar (typeName : String) (value : ScalarValue)

/-- The pages kept so far, and how many nodes they may still have. -/
structure ContinuationStore where
  next : Nat
  remainingNodes : Nat
  values : PartialMap String (List ValueNode)

/-- The parts of a context that its pages share. -/
structure ReflectionState where
  continuations : ContinuationStore
  remainingBuildNodes : Nat
  activeStashEntries : List String

structure ReflectionContext where
  maxDepth : Nat
  maxNodes : Nat
  depth : Nat
  continuationPrefix : String
  resolver : ReferenceKey → Option SymbolReference
  allowContinuations : Bool

namespace ReflectionContext

def withContinuationPrefix (maxDepth maxNodes : Nat) (continuationPrefix : String)
    (resolver : ReferenceKey → Option SymbolReference) : ReflectionContext × ReflectionState :=
  (⟨maxDepth, maxNodes, 0, continuationPrefix, resolver, true⟩,
    ⟨⟨0, maxNodes, PartialMap.empty⟩, maxNodes, []⟩)

def terminalTruncation (summary : String) : ValueNode := .truncated summary none

/-- A fresh handle with all the nodes that pages may still have. -/
def reserveContinuation (cx : ReflectionContext) (store : ContinuationStore) :
    Option (String × Nat × ContinuationStore) :=
  if 0 < store.remainingNodes then
    some (cx.continuationPrefix ++ "_" ++ store.next.repr, store.remainingNodes,
      { store with next := store.next + 1, remainingNodes := 0 })
  else none

/-! ### Bounding the number of nodes -/

section Bound

-- what happens to a node that the budget has no room for
variable (cutoff : String → ValueNode → ContinuationStore → ValueNode × ContinuationStore)

mutual

def boundNode : ValueNode → Nat → ContinuationStore → ValueNode × Nat × ContinuationStore
  | _, 0, store => (terminalTruncation "additional value nodes omitted", 0, store)
  | .record typeName fields, budget + 1, store =>
      if !fields.isEmpty ∧ budget = 0 then
        let (node, store) := cutoff "nested value omitted" (.record typeName fields) store
        (node, budget, store)
      else
        let (fields, budget, store) := boundFields (.record typeName) fields budget store
        (.record typeName fields, budget, store)
  | .variant enumName variantName fields, budget + 1, store =>
      if !fields.isEmpty ∧ budget = 0 then
        let (node, store) :=
          cutoff "nested value omitted" (.variant enumName variantName fields) store
        (node, budget, store)
      else
        let (fields, budget, store) :=
          boundFields (.variant enumName variantName) fields budget store
        (.variant enumName variantName fields, budget, store)
  | .sequence typeName items, budget + 1, store =>
      if !items.isEmpty ∧ budget = 0 then
        let (node, store) := cutoff "nested value omitted" (.sequence typeName items) store
        (node, budget, store)
      else
        let (items, budget, store) := boundItems (.sequence typeName) items budget store
        (.sequence typeName items, budget, store)
  | .scalar typeName value, budget + 1, store => (.scalar typeName value, budget, store)
  | .reference target, budget + 1, store => (.reference target, budget, store)
  | .cycle identity, budget + 1, store => (.cycle identity, budget, store)
  | .truncated summary continuation, budget + 1, store =>
      (.truncated summary continuation, budget, store)

def boundFields (omittedNode : List (ValueField ValueNode) → ValueNode) :
    List (ValueField ValueNode) → Nat → ContinuationStore →
      List (ValueField ValueNode) × Nat × ContinuationStore
  | [], budget, store => ([], budget, store)
  | ⟨name, value⟩ :: source, budget, store =>
      if !source.isEmpty ∧ budget ≤ 1 then
        if budget = 1 then
          let (node, store) :=
            cutoff "additional fields omitted" (omittedNode (⟨name, value⟩ :: source)) store
          ([⟨"…", node⟩], 0, store)
        else ([], budget, store)
      else if budget = 0 then ([], budget, store)
      else
        -- one node stays reserved for the mark that more fields follow
        let reserve := if !source.isEmpty then 1 else 0
        let (value, childBudget, store) := boundNode value (budget - reserve) store
        let (fields, budget, store) := boundFields omittedNode source (childBudget + reserve) store
        (⟨name, value⟩ :: fields, budget, store)

def boundItems (omittedNode : List ValueNode → ValueNode) :
    List ValueNode → Nat → ContinuationStore → List ValueNode × Nat × ContinuationStore
  | [], budget, store => ([], budget, store)
  | item :: source, budget, store =>
      if !source.isEmpty ∧ budget ≤ 1 then
        if budget = 1 then
          let (node, store) :=
            cutoff "additional sequence elements omitted" (omittedNode (item :: source)) store
          ([node], 0, store)
        else ([], budget, store)
      else if budget = 0 then ([], budget, store)
      else
        let reserve := if !source.isEmpty then 1 else 0
        let (item, childBudget, store) := boundNode item (budget - reserve) store
        let (items, budget, store) := boundItems omittedNode source (childBudget + reserve) store
        (item :: items, budget, store)

end

end Bound

/-- The cutoff inside a continuation page, which has no pages of its own. -/
def terminalCutoff (summary : String) (_ : ValueNode) (store : ContinuationStore) :
    ValueNode × ContinuationStore :=
  (terminalTruncation summary, store)

def storeContinuation (summary handle : String) (budget : Nat) (value : ValueNode)
    (store : ContinuationStore) : ValueNode × ContinuationStore :=
  let (value, _, store) := boundNode terminalCutoff value budget store
  (.truncated summary (some handle), { store with values := store.values.insert handle [value] })

def freezeContinuation (cx : ReflectionContext) (summary : String) (value : ValueNode)
    (store : ContinuationStore) : ValueNode × ContinuationStore :=
  match cx.reserveContinuation store with
  | none => (terminalTruncation summary, store)
  | some (handle, budget, store) => storeContinuation summary handle budget value store

/-- Apply the output budget after a value has been reflected. -/
def finish (cx : ReflectionContext) (value : ValueNode) (store : ContinuationStore) :
    ValueNode × ContinuationStore :=
  if cx.maxNodes = 0 then cx.freezeContinuation "value omitted by the node limit" value store
  else
    let (node, _, store) := boundNode cx.freezeContinuation value cx.maxNodes store
    (node, store)

/-! ### Reflecting -/

mutual

def reflect (cx : ReflectionContext) : Reflectable → ReflectionState → ValueNode × ReflectionState
  | .node summary body, state =>
      if state.remainingBuildNodes = 0 then
        (terminalTruncation "value omitted by the node limit", state)
      else
        let state := { state with remainingBuildNodes := state.remainingBuildNodes - 1 }
        if cx.maxDepth ≤ cx.depth then
          if cx.allowContinuations then
            match cx.reserveContinuation state.continuations with
            | none => (terminalTruncation summary, state)
            | some (handle, budget, store) =>
                let page := { cx with depth := 0, allowContinuations := false }
                let (value, state) := reflect page body { state with continuations := store }
                let (node, store) :=
                  storeContinuation summary handle budget value state.continuations
                (node, { state with continuations := store })
          else (terminalTruncation summary, state)
        else reflect { cx with depth := cx.depth + 1 } body state
  | .stashEntry identity body, state =>
      if identity ∈ state.activeStashEntries then (.cycle identity, state)
      else
        let active := identity :: state.activeStashEntries
        let (value, state) := reflect cx body { state with activeStashEntries := active }
        (value, { state with activeStashEntries := state.activeStashEntries.erase identity })
  | .record typeName fields, state =>
      let (fields, state) := reflectFields cx fields state
      (.record typeName fields, state)
  | .variant enumName variantName fields, state =>
      let (fields, state) := reflectFields cx fields state
      (.variant enumName variantName fields, state)
  | .sequence typeName items, state =>
      let (items, state) := reflectItems cx items state
      (.sequence typeName items, state)
  | .symbol key unresolved, state =>
      match cx.resolver key with
      | some target => (.reference target, state)
      | none => (.scalar "Symbol" (.string unresolved), state)
  | .scalar typeName value, state => (.scalar typeName value, state)

def reflectFields (cx : ReflectionContext) :
    List (ValueField Reflectable) → ReflectionState → List (ValueField ValueNode) × ReflectionState
  | [], state => ([], state)
  | ⟨name, value⟩ :: fields, state =>
      let (value, state) := reflect cx value state
      let (fields, state) := reflectFields cx fields state
      (⟨name, value⟩ :: fields, state)

def reflectItems (cx : ReflectionContext) :
    List Reflectable → ReflectionState → List ValueNode × ReflectionState
  | [], state => ([], state)
  | item :: items, state =>
      if state.remainingBuildNodes = 0 then
        ([terminalTruncation "additional sequence elements omitted"], state)
      else
        let (item, state) := reflect cx item state
        let (items, state) := reflectItems cx items state
        (item :: items, state)

end

end ReflectionContext

/-! ### Handles -/

mutual

/-- The handles of a node, in the order in which they are visited. -/
def ValueNode.handles : ValueNode → List String
  | .record _ fields => fieldHandles fields
  | .variant _ _ fields => fieldHandles fields
  | .sequence _ items => itemHandles items
  | .truncated _ (some handle) => [handle]
  | _ => []

def fieldHandles : List (ValueField ValueNode) → List String
  | [] => []
  | ⟨_, value⟩ :: fields => value.handles ++ fieldHandles fields

def itemHandles : List ValueNode → List String
  | [] => []
  | item :: items => item.handles ++ itemHandles items

end

/-- A handle occurs in a node. -/
inductive ValueNode.Mentions (handle : String) : ValueNode → Prop
  | truncated (summary : String) : Mentions handle (.truncated summary (some handle))
  | record {typeName : String} {fields : List (ValueField ValueNode)}
      {field : ValueField ValueNode} (hf : field ∈ fields) (h : Mentions handle field.value) :
      Mentions handle (.record typeName fields)
  | variant {enumName variantName : String} {fields : List (ValueField ValueNode)}
      {field : ValueField ValueNode} (hf : field ∈ fields) (h : Mentions handle field.value) :
      Mentions handle (.variant enumName variantName fields)
  | sequence {typeName : String} {items : List ValueNode} {item : ValueNode}
      (hi : item ∈ items) (h : Mentions handle item) : Mentions handle (.sequence typeName items)

namespace ValueNode

variable {K L : String → Prop}

/-- Every handle in a node is one of `K`. -/
def MentionsOnly (node : ValueNode) (K : String → Prop) : Prop := ∀ h, node.Mentions h → K h

theorem MentionsOnly.mono {node : ValueNode} (h : node.MentionsOnly K) (hKL : ∀ k, K k → L k) :
    node.MentionsOnly L := fun k hk => hKL k (h k hk)

@[simp] theorem mentionsOnly_record {typeName : String} {fields : List (ValueField ValueNode)} :
    (record typeName fields).MentionsOnly K ↔ ∀ field ∈ fields, field.value.MentionsOnly K :=
  ⟨fun h _ hf _ hm => h _ (.record hf hm), fun h _ hm => by
    cases hm with
    | record hf hm => exact h _ hf _ hm⟩

@[simp] theorem mentionsOnly_variant {enumName variantName : String}
    {fields : List (ValueField ValueNode)} : (variant enumName variantName fields).MentionsOnly K ↔
      ∀ field ∈ fields, field.value.MentionsOnly K :=
  ⟨fun h _ hf _ hm => h _ (.variant hf hm), fun h _ hm => by
    cases hm with
    | variant hf hm => exact h _ hf _ hm⟩

@[simp] theorem mentionsOnly_sequence {typeName : String} {items : List ValueNode} :
    (sequence typeName items).MentionsOnly K ↔ ∀ item ∈ items, item.MentionsOnly K :=
  ⟨fun h _ hi _ hm => h _ (.sequence hi hm), fun h _ hm => by
    cases hm with
    | sequence hi hm => exact h _ hi _ hm⟩

@[simp] theorem mentionsOnly_scalar {typeName : String} {value : ScalarValue} :
    (scalar typeName value).MentionsOnly K := fun _ => nofun

@[simp] theorem mentionsOnly_reference {target : SymbolReference} :
    (reference target).MentionsOnly K := fun _ => nofun

@[simp] theorem mentionsOnly_cycle {identity : String} : (cycle identity).MentionsOnly K :=
  fun _ => nofun

@[simp] theorem mentionsOnly_truncated {summary handle : String} :
    (truncated summary (some handle)).MentionsOnly K ↔ K handle :=
  ⟨fun h => h _ (.truncated summary), fun h _ hm => by
    cases hm
    exact h⟩

@[simp] theorem mentionsOnly_terminalTruncation {summary : String} :
    (ReflectionContext.terminalTruncation summary).MentionsOnly K := fun _ => nofun

end ValueNode

/-- The handles of the pages that are kept. -/
abbrev ContinuationStore.Has (store : ContinuationStore) : String → Prop := store.values.Has

/-- Every handle in a page names a page. -/
def ContinuationStore.Closed (store : ContinuationStore) : Prop :=
  ∀ handle page, store.values handle = some page → ∀ node ∈ page, node.MentionsOnly store.Has

/-- Pages were added under handles that start with a prefix, and every handle in a page still
names one. -/
structure Keeps (continuationPrefix : String) (store store' : ContinuationStore) : Prop where
  mono : ∀ handle, store.Has handle → store'.Has handle
  named : ∀ handle, store'.Has handle →
    store.Has handle ∨ ∃ n : Nat, handle = continuationPrefix ++ "_" ++ n.repr
  closed : store'.Closed

namespace Keeps

variable {p : String} {s s' s'' : ContinuationStore}

theorem refl (h : s.Closed) : Keeps p s s := ⟨fun _ => id, fun _ => .inl, h⟩

theorem trans (h : Keeps p s s') (h' : Keeps p s' s'') : Keeps p s s'' :=
  ⟨fun k hk => h'.mono k (h.mono k hk),
    fun k hk => (h'.named k hk).elim (h.named k) .inr, h'.closed⟩

/-- The counters of a store play no part. -/
theorem congr {t : ContinuationStore} (h : Keeps p s s') (ht : t.values = s.values) :
    Keeps p t s' := by
  cases s
  cases t
  cases ht
  exact ⟨h.mono, h.named, h.closed⟩

end Keeps

/-- A node and the store it was made with: the store keeps what the earlier one has, and every
handle in the node names a page. -/
def SoundIn (p : String) (s : ContinuationStore) (r : ValueNode × ContinuationStore) : Prop :=
  Keeps p s r.2 ∧ r.1.MentionsOnly r.2.Has

namespace ReflectionContext

variable {p : String} {s s' : ContinuationStore} {cx : ReflectionContext}

/-- A cutoff that turns a node whose handles name pages into one of that kind. -/
def SoundCutoff (p : String)
    (cutoff : String → ValueNode → ContinuationStore → ValueNode × ContinuationStore) : Prop :=
  ∀ summary value s, s.Closed → value.MentionsOnly s.Has → SoundIn p s (cutoff summary value s)

section Bound

variable {cutoff : String → ValueNode → ContinuationStore → ValueNode × ContinuationStore}

mutual

theorem boundNode_sound (hcut : SoundCutoff p cutoff) : ∀ node budget s, s.Closed →
    node.MentionsOnly s.Has →
      SoundIn p s ((boundNode cutoff node budget s).1, (boundNode cutoff node budget s).2.2)
  | node, 0, s, hs, _ => by
      cases node <;> exact ⟨.refl hs, ValueNode.mentionsOnly_terminalTruncation⟩
  | .record typeName fields, budget + 1, s, hs, hn => by
      rw [boundNode]
      split
      · exact hcut _ _ s hs hn
      · have hf := boundFields_sound hcut (.record typeName) (fun _ _ => by simp) fields budget s hs
          (ValueNode.mentionsOnly_record.mp hn)
        exact ⟨hf.1, ValueNode.mentionsOnly_record.mpr hf.2⟩
  | .variant enumName variantName fields, budget + 1, s, hs, hn => by
      rw [boundNode]
      split
      · exact hcut _ _ s hs hn
      · have hf := boundFields_sound hcut (.variant enumName variantName) (fun _ _ => by simp)
          fields budget s hs (ValueNode.mentionsOnly_variant.mp hn)
        exact ⟨hf.1, ValueNode.mentionsOnly_variant.mpr hf.2⟩
  | .sequence typeName items, budget + 1, s, hs, hn => by
      rw [boundNode]
      split
      · exact hcut _ _ s hs hn
      · have hi := boundItems_sound hcut (.sequence typeName) (fun _ _ => by simp) items budget s hs
          (ValueNode.mentionsOnly_sequence.mp hn)
        exact ⟨hi.1, ValueNode.mentionsOnly_sequence.mpr hi.2⟩
  | .scalar typeName value, budget + 1, s, hs, hn => ⟨.refl hs, hn⟩
  | .reference target, budget + 1, s, hs, hn => ⟨.refl hs, hn⟩
  | .cycle identity, budget + 1, s, hs, hn => ⟨.refl hs, hn⟩
  | .truncated summary continuation, budget + 1, s, hs, hn => ⟨.refl hs, hn⟩

theorem boundFields_sound (hcut : SoundCutoff p cutoff)
    (omittedNode : List (ValueField ValueNode) → ValueNode)
    (homit : ∀ (K : String → Prop) (fields : List (ValueField ValueNode)),
      (omittedNode fields).MentionsOnly K ↔ ∀ field ∈ fields, field.value.MentionsOnly K) :
    ∀ fields budget s, s.Closed → (∀ field ∈ fields, field.value.MentionsOnly s.Has) →
      Keeps p s (boundFields cutoff omittedNode fields budget s).2.2 ∧
        ∀ field ∈ (boundFields cutoff omittedNode fields budget s).1,
          field.value.MentionsOnly (boundFields cutoff omittedNode fields budget s).2.2.Has
  | [], budget, s, hs, _ => by
      rw [boundFields]
      exact ⟨.refl hs, by simp⟩
  | ⟨name, value⟩ :: source, budget, s, hs, hn => by
      rw [boundFields]
      split
      · split
        · obtain ⟨hk, hm⟩ := hcut "additional fields omitted" (omittedNode (⟨name, value⟩ :: source))
            s hs ((homit _ _).mpr hn)
          exact ⟨hk, by simpa using hm⟩
        · exact ⟨.refl hs, by simp⟩
      · split
        · exact ⟨.refl hs, by simp⟩
        · obtain ⟨hvalue, hsource⟩ := List.forall_mem_cons.mp hn
          have h₁ := boundNode_sound hcut value
            (budget - if !source.isEmpty then 1 else 0) s hs hvalue
          have h₂ := boundFields_sound hcut omittedNode homit source
            ((boundNode cutoff value (budget - if !source.isEmpty then 1 else 0) s).2.1 +
              if !source.isEmpty then 1 else 0) _ h₁.1.closed
            (fun field hf => (hsource field hf).mono h₁.1.mono)
          refine ⟨h₁.1.trans h₂.1, List.forall_mem_cons.mpr ⟨?_, h₂.2⟩⟩
          exact h₁.2.mono h₂.1.mono

theorem boundItems_sound (hcut : SoundCutoff p cutoff) (omittedNode : List ValueNode → ValueNode)
    (homit : ∀ (K : String → Prop) (items : List ValueNode),
      (omittedNode items).MentionsOnly K ↔ ∀ item ∈ items, item.MentionsOnly K) :
    ∀ items budget s, s.Closed → (∀ item ∈ items, item.MentionsOnly s.Has) →
      Keeps p s (boundItems cutoff omittedNode items budget s).2.2 ∧
        ∀ item ∈ (boundItems cutoff omittedNode items budget s).1,
          item.MentionsOnly (boundItems cutoff omittedNode items budget s).2.2.Has
  | [], budget, s, hs, _ => by
      rw [boundItems]
      exact ⟨.refl hs, by simp⟩
  | item :: source, budget, s, hs, hn => by
      rw [boundItems]
      split
      · split
        · obtain ⟨hk, hm⟩ := hcut "additional sequence elements omitted"
            (omittedNode (item :: source)) s hs ((homit _ _).mpr hn)
          exact ⟨hk, by simpa using hm⟩
        · exact ⟨.refl hs, by simp⟩
      · split
        · exact ⟨.refl hs, by simp⟩
        · obtain ⟨hitem, hsource⟩ := List.forall_mem_cons.mp hn
          have h₁ := boundNode_sound hcut item
            (budget - if !source.isEmpty then 1 else 0) s hs hitem
          have h₂ := boundItems_sound hcut omittedNode homit source
            ((boundNode cutoff item (budget - if !source.isEmpty then 1 else 0) s).2.1 +
              if !source.isEmpty then 1 else 0) _ h₁.1.closed
            (fun item hi => (hsource item hi).mono h₁.1.mono)
          refine ⟨h₁.1.trans h₂.1, List.forall_mem_cons.mpr ⟨?_, h₂.2⟩⟩
          exact h₁.2.mono h₂.1.mono

end

end Bound

theorem soundCutoff_terminal : SoundCutoff p terminalCutoff := fun _ _ _ hs _ =>
  ⟨.refl hs, ValueNode.mentionsOnly_terminalTruncation⟩

/-- A page is kept under a handle with the prefix. -/
theorem storeContinuation_sound (summary : String) (n budget : Nat) {value : ValueNode}
    (hs : s.Closed) (hv : value.MentionsOnly s.Has) :
    SoundIn p s (storeContinuation summary (p ++ "_" ++ n.repr) budget value s) := by
  obtain ⟨hk, hm⟩ := boundNode_sound (p := p) soundCutoff_terminal value budget s hs hv
  rw [storeContinuation]
  generalize boundNode terminalCutoff value budget s = r at hk hm
  obtain ⟨value, left, store⟩ := r
  have hmono : ∀ k, store.Has k →
      (store.values.insert (p ++ "_" ++ n.repr) [value]).Has k := fun k hk => by simp [hk]
  refine ⟨⟨fun k hk' => hmono k (hk.mono k hk'), fun k hk' => ?_, fun handle page hp node hn => ?_⟩,
    ValueNode.mentionsOnly_truncated.mpr (PartialMap.has_insert.mpr (.inl rfl))⟩
  · rcases PartialMap.has_insert.mp hk' with rfl | hk'
    · exact .inr ⟨n, rfl⟩
    · exact hk.named k hk'
  · rcases PartialMap.insert_eq_some hp with ⟨rfl, rfl⟩ | ⟨-, hp⟩
    · rw [List.mem_singleton.mp hn]
      exact hm.mono hmono
    · exact (hk.closed handle page hp node hn).mono hmono

theorem soundCutoff_freeze : SoundCutoff cx.continuationPrefix cx.freezeContinuation := by
  intro summary value s hs hv
  rw [freezeContinuation, reserveContinuation]
  by_cases hpos : 0 < s.remainingNodes
  · simp only [hpos, if_true]
    obtain ⟨hk, hm⟩ := storeContinuation_sound (p := cx.continuationPrefix)
      (s := { s with next := s.next + 1, remainingNodes := 0 }) summary s.next s.remainingNodes hs hv
    exact ⟨hk.congr rfl, hm⟩
  · simp only [hpos, if_false]
    exact ⟨.refl hs, ValueNode.mentionsOnly_terminalTruncation⟩

theorem finish_sound (cx : ReflectionContext) {value : ValueNode} (hs : s.Closed) (hv : value.MentionsOnly s.Has) :
    SoundIn cx.continuationPrefix s (cx.finish value s) := by
  rw [finish]
  split
  · exact soundCutoff_freeze _ _ s hs hv
  · exact boundNode_sound soundCutoff_freeze value cx.maxNodes s hs hv

mutual

theorem reflect_sound : ∀ value (cx : ReflectionContext) state, state.continuations.Closed →
    SoundIn cx.continuationPrefix state.continuations
      ((reflect cx value state).1, (reflect cx value state).2.continuations)
  | .node summary body, cx, state, hs => by
      rw [reflect]
      split
      · exact ⟨.refl hs, ValueNode.mentionsOnly_terminalTruncation⟩
      split
      · split
        · by_cases hpos : 0 < state.continuations.remainingNodes
          · simp only [reserveContinuation, hpos, if_true]
            -- the page is reflected with the handle reserved, and then kept under it
            have h₁ := reflect_sound body { cx with depth := 0, allowContinuations := false }
              ⟨⟨state.continuations.next + 1, 0, state.continuations.values⟩,
                state.remainingBuildNodes - 1, state.activeStashEntries⟩ hs
            have h₂ := storeContinuation_sound (p := cx.continuationPrefix) summary
              state.continuations.next state.continuations.remainingNodes h₁.1.closed h₁.2
            exact ⟨(h₁.1.trans h₂.1).congr rfl, h₂.2⟩
          · simp only [reserveContinuation, hpos, if_false]
            exact ⟨.refl hs, ValueNode.mentionsOnly_terminalTruncation⟩
        · exact ⟨.refl hs, ValueNode.mentionsOnly_terminalTruncation⟩
      · exact reflect_sound body { cx with depth := cx.depth + 1 }
          { state with remainingBuildNodes := state.remainingBuildNodes - 1 } hs
  | .stashEntry identity body, cx, state, hs => by
      rw [reflect]
      split
      · exact ⟨.refl hs, ValueNode.mentionsOnly_cycle⟩
      · exact reflect_sound body cx
          { state with activeStashEntries := identity :: state.activeStashEntries } hs
  | .record typeName fields, cx, state, hs => by
      rw [reflect]
      have hf := reflectFields_sound fields cx state hs
      exact ⟨hf.1, ValueNode.mentionsOnly_record.mpr hf.2⟩
  | .variant enumName variantName fields, cx, state, hs => by
      rw [reflect]
      have hf := reflectFields_sound fields cx state hs
      exact ⟨hf.1, ValueNode.mentionsOnly_variant.mpr hf.2⟩
  | .sequence typeName items, cx, state, hs => by
      rw [reflect]
      have hi := reflectItems_sound items cx state hs
      exact ⟨hi.1, ValueNode.mentionsOnly_sequence.mpr hi.2⟩
  | .symbol key unresolved, cx, state, hs => by
      rw [reflect]
      split
      · exact ⟨.refl hs, ValueNode.mentionsOnly_reference⟩
      · exact ⟨.refl hs, ValueNode.mentionsOnly_scalar⟩
  | .scalar typeName value, cx, state, hs => ⟨.refl hs, ValueNode.mentionsOnly_scalar⟩

theorem reflectFields_sound : ∀ fields (cx : ReflectionContext) state,
    state.continuations.Closed →
      Keeps cx.continuationPrefix state.continuations
        (reflectFields cx fields state).2.continuations ∧
      ∀ field ∈ (reflectFields cx fields state).1,
        field.value.MentionsOnly (reflectFields cx fields state).2.continuations.Has
  | [], cx, state, hs => ⟨.refl hs, nofun⟩
  | ⟨name, value⟩ :: fields, cx, state, hs => by
      rw [reflectFields]
      have h₁ := reflect_sound value cx state hs
      have h₂ := reflectFields_sound fields cx (reflect cx value state).2 h₁.1.closed
      exact ⟨h₁.1.trans h₂.1, List.forall_mem_cons.mpr ⟨h₁.2.mono h₂.1.mono, h₂.2⟩⟩

theorem reflectItems_sound : ∀ items (cx : ReflectionContext) state,
    state.continuations.Closed →
      Keeps cx.continuationPrefix state.continuations
        (reflectItems cx items state).2.continuations ∧
      ∀ item ∈ (reflectItems cx items state).1,
        item.MentionsOnly (reflectItems cx items state).2.continuations.Has
  | [], cx, state, hs => ⟨.refl hs, nofun⟩
  | item :: items, cx, state, hs => by
      rw [reflectItems]
      split
      · exact ⟨.refl hs, by simp⟩
      · have h₁ := reflect_sound item cx state hs
        have h₂ := reflectItems_sound items cx (reflect cx item state).2 h₁.1.closed
        exact ⟨h₁.1.trans h₂.1, List.forall_mem_cons.mpr ⟨h₁.2.mono h₂.1.mono, h₂.2⟩⟩

end

/-- Both passes over a value, and the pages they keep. -/
def reflected (maxDepth maxNodes : Nat) (continuationPrefix : String)
    (resolver : ReferenceKey → Option SymbolReference) (value : Reflectable) :
    ValueNode × PartialMap String (List ValueNode) :=
  let (cx, state) := withContinuationPrefix maxDepth maxNodes continuationPrefix resolver
  let (raw, state) := cx.reflect value state
  let (value, store) := cx.finish raw state.continuations
  (value, store.values)

/-- Every handle in a reflected value, or in a page that is kept for it, names such a page, and the
names of all pages start with the prefix. -/
theorem reflected_sound (maxDepth maxNodes : Nat) (resolver : ReferenceKey → Option SymbolReference)
    (value : Reflectable) :
    (reflected maxDepth maxNodes p resolver value).1.MentionsOnly
        (reflected maxDepth maxNodes p resolver value).2.Has ∧
      (∀ handle page, (reflected maxDepth maxNodes p resolver value).2 handle = some page →
        ∀ node ∈ page, node.MentionsOnly (reflected maxDepth maxNodes p resolver value).2.Has) ∧
      ∀ handle, (reflected maxDepth maxNodes p resolver value).2.Has handle →
        ∃ n : Nat, handle = p ++ "_" ++ n.repr := by
  let start := withContinuationPrefix maxDepth maxNodes p resolver
  have hempty : start.2.continuations.Closed := fun _ _ => nofun
  obtain ⟨hk₁, hm₁⟩ := reflect_sound value start.1 start.2 hempty
  obtain ⟨hk₂, hm₂⟩ := finish_sound start.1 hk₁.closed hm₁
  refine ⟨hm₂, hk₂.closed, fun handle hh => ?_⟩
  rcases (hk₁.trans hk₂).named handle hh with hnone | hn
  · exact absurd hnone PartialMap.not_has_empty
  · exact hn

end ReflectionContext

end Sage.Inspector
