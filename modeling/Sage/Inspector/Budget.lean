import Sage.Inspector.Reflection

/-!
# Inspector — the arithmetic of the budgets

Reflecting and finishing in a build with overflow checks: a subtraction that underflows gives no
result.  Every subtraction is guarded, so the checks change nothing.

* `boundNode?`, `finish?`, `reflect?` — the functions of `sage-reflect` with the checks.
* `boundNode?_eq`, `finish?_eq`, `reflect?_eq`.
-/

namespace Sage.Inspector

/-- A subtraction in a build with overflow checks. -/
def checkedSub (a b : Nat) : Option Nat := if b ≤ a then some (a - b) else none

theorem checkedSub_eq {a b : Nat} (h : b ≤ a) : checkedSub a b = some (a - b) := if_pos h

theorem checkedSub_succ (n : Nat) : checkedSub (n + 1) 1 = some n := rfl

namespace ReflectionContext

section

variable (cutoff : String → ValueNode → ContinuationStore →
  Option (ValueNode × ContinuationStore))

mutual

def boundNode? : ValueNode → Nat → ContinuationStore →
    Option (ValueNode × Nat × ContinuationStore)
  | node, budget, store =>
      if budget = 0 then
        some (terminalTruncation "additional value nodes omitted", 0, store)
      else do
        let budget ← checkedSub budget 1
        match node with
        | .record typeName fields =>
            if !fields.isEmpty ∧ budget = 0 then
              let (node, store) ← cutoff "nested value omitted" (.record typeName fields) store
              return (node, budget, store)
            else
              let (fields, budget, store) ← boundFields? (.record typeName) fields budget store
              return (.record typeName fields, budget, store)
        | .variant enumName variantName fields =>
            if !fields.isEmpty ∧ budget = 0 then
              let (node, store) ←
                cutoff "nested value omitted" (.variant enumName variantName fields) store
              return (node, budget, store)
            else
              let (fields, budget, store) ←
                boundFields? (.variant enumName variantName) fields budget store
              return (.variant enumName variantName fields, budget, store)
        | .sequence typeName items =>
            if !items.isEmpty ∧ budget = 0 then
              let (node, store) ← cutoff "nested value omitted" (.sequence typeName items) store
              return (node, budget, store)
            else
              let (items, budget, store) ← boundItems? (.sequence typeName) items budget store
              return (.sequence typeName items, budget, store)
        | node => return (node, budget, store)

def boundFields? (omittedNode : List (ValueField ValueNode) → ValueNode) :
    List (ValueField ValueNode) → Nat → ContinuationStore →
      Option (List (ValueField ValueNode) × Nat × ContinuationStore)
  | [], budget, store => some ([], budget, store)
  | ⟨name, value⟩ :: source, budget, store =>
      if !source.isEmpty ∧ budget ≤ 1 then
        if budget = 1 then do
          let budget ← checkedSub budget 1
          let (node, store) ←
            cutoff "additional fields omitted" (omittedNode (⟨name, value⟩ :: source)) store
          return ([⟨"…", node⟩], budget, store)
        else some ([], budget, store)
      else if budget = 0 then some ([], budget, store)
      else do
        let reserve := if !source.isEmpty then 1 else 0
        let childBudget ← checkedSub budget reserve
        let (value, childBudget, store) ← boundNode? value childBudget store
        let (fields, budget, store) ← boundFields? omittedNode source (childBudget + reserve) store
        return (⟨name, value⟩ :: fields, budget, store)

def boundItems? (omittedNode : List ValueNode → ValueNode) :
    List ValueNode → Nat → ContinuationStore → Option (List ValueNode × Nat × ContinuationStore)
  | [], budget, store => some ([], budget, store)
  | item :: source, budget, store =>
      if !source.isEmpty ∧ budget ≤ 1 then
        if budget = 1 then do
          let budget ← checkedSub budget 1
          let (node, store) ←
            cutoff "additional sequence elements omitted" (omittedNode (item :: source)) store
          return ([node], budget, store)
        else some ([], budget, store)
      else if budget = 0 then some ([], budget, store)
      else do
        let reserve := if !source.isEmpty then 1 else 0
        let childBudget ← checkedSub budget reserve
        let (item, childBudget, store) ← boundNode? item childBudget store
        let (items, budget, store) ← boundItems? omittedNode source (childBudget + reserve) store
        return (item :: items, budget, store)

end

end

def storeContinuation? (summary handle : String) (budget : Nat) (value : ValueNode)
    (store : ContinuationStore) : Option (ValueNode × ContinuationStore) := do
  let (value, _, store) ←
    boundNode? (fun summary value store => some (terminalCutoff summary value store)) value budget
      store
  return (.truncated summary (some handle),
    { store with values := store.values.insert handle [value] })

def freezeContinuation? (cx : ReflectionContext) (summary : String) (value : ValueNode)
    (store : ContinuationStore) : Option (ValueNode × ContinuationStore) :=
  match cx.reserveContinuation store with
  | none => some (terminalTruncation summary, store)
  | some (handle, budget, store) => storeContinuation? summary handle budget value store

def finish? (cx : ReflectionContext) (value : ValueNode) (store : ContinuationStore) :
    Option (ValueNode × ContinuationStore) :=
  if cx.maxNodes = 0 then cx.freezeContinuation? "value omitted by the node limit" value store
  else do
    let (node, _, store) ← boundNode? cx.freezeContinuation? value cx.maxNodes store
    return (node, store)

mutual

def reflect? (cx : ReflectionContext) :
    Reflectable → ReflectionState → Option (ValueNode × ReflectionState)
  | .node summary body, state =>
      if state.remainingBuildNodes = 0 then
        some (terminalTruncation "value omitted by the node limit", state)
      else do
        let remaining ← checkedSub state.remainingBuildNodes 1
        let state := { state with remainingBuildNodes := remaining }
        if cx.maxDepth ≤ cx.depth then
          if cx.allowContinuations then
            match cx.reserveContinuation state.continuations with
            | none => return (terminalTruncation summary, state)
            | some (handle, budget, store) => do
                let page := { cx with depth := 0, allowContinuations := false }
                let (value, state) ← reflect? page body { state with continuations := store }
                let (node, store) ←
                  storeContinuation? summary handle budget value state.continuations
                return (node, { state with continuations := store })
          else return (terminalTruncation summary, state)
        else reflect? { cx with depth := cx.depth + 1 } body state
  | .stashEntry identity body, state =>
      if identity ∈ state.activeStashEntries then some (.cycle identity, state)
      else do
        let active := identity :: state.activeStashEntries
        let (value, state) ← reflect? cx body { state with activeStashEntries := active }
        return (value, { state with activeStashEntries := state.activeStashEntries.erase identity })
  | .record typeName fields, state => do
      let (fields, state) ← reflectFields? cx fields state
      return (.record typeName fields, state)
  | .variant enumName variantName fields, state => do
      let (fields, state) ← reflectFields? cx fields state
      return (.variant enumName variantName fields, state)
  | .sequence typeName items, state => do
      let (items, state) ← reflectItems? cx items state
      return (.sequence typeName items, state)
  | .symbol key unresolved, state =>
      match cx.resolver key with
      | some target => some (.reference target, state)
      | none => some (.scalar "Symbol" (.string unresolved), state)
  | .scalar typeName value, state => some (.scalar typeName value, state)

def reflectFields? (cx : ReflectionContext) :
    List (ValueField Reflectable) → ReflectionState →
      Option (List (ValueField ValueNode) × ReflectionState)
  | [], state => some ([], state)
  | ⟨name, value⟩ :: fields, state => do
      let (value, state) ← reflect? cx value state
      let (fields, state) ← reflectFields? cx fields state
      return (⟨name, value⟩ :: fields, state)

def reflectItems? (cx : ReflectionContext) :
    List Reflectable → ReflectionState → Option (List ValueNode × ReflectionState)
  | [], state => some ([], state)
  | item :: items, state =>
      if state.remainingBuildNodes = 0 then
        some ([terminalTruncation "additional sequence elements omitted"], state)
      else do
        let (item, state) ← reflect? cx item state
        let (items, state) ← reflectItems? cx items state
        return (item :: items, state)

end

section

variable {cutoff? : String → ValueNode → ContinuationStore → Option (ValueNode × ContinuationStore)}
  {cutoff : String → ValueNode → ContinuationStore → ValueNode × ContinuationStore}

mutual

/-- No subtraction of a budget underflows. -/
theorem boundNode?_eq
    (hcut : ∀ summary value store,
      cutoff? summary value store = some (cutoff summary value store)) :
    ∀ node budget store,
      boundNode? cutoff? node budget store = some (boundNode cutoff node budget store)
  | node, 0, store => by
      cases node <;> rfl
  | .record typeName fields, budget + 1, store => by
      rw [boundNode?, boundNode, if_neg (Nat.succ_ne_zero budget), checkedSub_succ]
      simp only [Option.bind_eq_bind, Option.bind_some]
      by_cases hnone : (!fields.isEmpty) = true ∧ budget = 0
      · rw [if_pos hnone, if_pos hnone, hcut]
        rfl
      · rw [if_neg hnone, if_neg hnone, boundFields?_eq hcut]
        rfl
  | .variant enumName variantName fields, budget + 1, store => by
      rw [boundNode?, boundNode, if_neg (Nat.succ_ne_zero budget), checkedSub_succ]
      simp only [Option.bind_eq_bind, Option.bind_some]
      by_cases hnone : (!fields.isEmpty) = true ∧ budget = 0
      · rw [if_pos hnone, if_pos hnone, hcut]
        rfl
      · rw [if_neg hnone, if_neg hnone, boundFields?_eq hcut]
        rfl
  | .sequence typeName items, budget + 1, store => by
      rw [boundNode?, boundNode, if_neg (Nat.succ_ne_zero budget), checkedSub_succ]
      simp only [Option.bind_eq_bind, Option.bind_some]
      by_cases hnone : (!items.isEmpty) = true ∧ budget = 0
      · rw [if_pos hnone, if_pos hnone, hcut]
        rfl
      · rw [if_neg hnone, if_neg hnone, boundItems?_eq hcut]
        rfl
  | .scalar _ _, budget + 1, store => by
      rw [boundNode?, boundNode, if_neg (Nat.succ_ne_zero budget), checkedSub_succ]
      rfl
  | .reference _, budget + 1, store => by
      rw [boundNode?, boundNode, if_neg (Nat.succ_ne_zero budget), checkedSub_succ]
      rfl
  | .cycle _, budget + 1, store => by
      rw [boundNode?, boundNode, if_neg (Nat.succ_ne_zero budget), checkedSub_succ]
      rfl
  | .truncated _ _, budget + 1, store => by
      rw [boundNode?, boundNode, if_neg (Nat.succ_ne_zero budget), checkedSub_succ]
      rfl

theorem boundFields?_eq
    (hcut : ∀ summary value store,
      cutoff? summary value store = some (cutoff summary value store)) :
    ∀ omittedNode fields budget store, boundFields? cutoff? omittedNode fields budget store =
      some (boundFields cutoff omittedNode fields budget store)
  | _, [], _, _ => rfl
  | omittedNode, ⟨name, value⟩ :: source, budget, store => by
      rw [boundFields?, boundFields]
      split
      · split
        · next hone =>
          rw [hcut, hone]
          rfl
        · rfl
      · split
        · rfl
        · next hmore hzero =>
          -- where more follows, two nodes are left
          have hreserve : (if !source.isEmpty then 1 else 0) ≤ budget := by
            split <;> omega
          simp only [checkedSub_eq hreserve, Option.bind_eq_bind, Option.bind_some,
            boundNode?_eq hcut, boundFields?_eq hcut]
          rfl

theorem boundItems?_eq
    (hcut : ∀ summary value store,
      cutoff? summary value store = some (cutoff summary value store)) :
    ∀ omittedNode items budget store, boundItems? cutoff? omittedNode items budget store =
      some (boundItems cutoff omittedNode items budget store)
  | _, [], _, _ => rfl
  | omittedNode, item :: source, budget, store => by
      rw [boundItems?, boundItems]
      split
      · split
        · next hone =>
          rw [hcut, hone]
          rfl
        · rfl
      · split
        · rfl
        · next hmore hzero =>
          have hreserve : (if !source.isEmpty then 1 else 0) ≤ budget := by
            split <;> omega
          simp only [checkedSub_eq hreserve, Option.bind_eq_bind, Option.bind_some,
            boundNode?_eq hcut, boundItems?_eq hcut]
          rfl

end

end

theorem storeContinuation?_eq (summary handle : String) (budget : Nat) (value : ValueNode)
    (store : ContinuationStore) : storeContinuation? summary handle budget value store =
      some (storeContinuation summary handle budget value store) := by
  rw [storeContinuation?, boundNode?_eq fun _ _ _ => rfl]
  rfl

theorem freezeContinuation?_eq (cx : ReflectionContext) (summary : String) (value : ValueNode)
    (store : ContinuationStore) : cx.freezeContinuation? summary value store =
      some (cx.freezeContinuation summary value store) := by
  rw [freezeContinuation?, freezeContinuation]
  cases cx.reserveContinuation store with
  | none => rfl
  | some reserved => exact storeContinuation?_eq summary _ _ value _

theorem finish?_eq (cx : ReflectionContext) (value : ValueNode) (store : ContinuationStore) :
    cx.finish? value store = some (cx.finish value store) := by
  rw [finish?, finish]
  split
  · exact cx.freezeContinuation?_eq _ value store
  · rw [boundNode?_eq cx.freezeContinuation?_eq]
    rfl

mutual

theorem reflect?_eq : ∀ value (cx : ReflectionContext) state,
    reflect? cx value state = some (reflect cx value state)
  | .node summary body, cx, state => by
      rw [reflect?, reflect]
      split
      · rfl
      · next hzero =>
        rw [checkedSub_eq (Nat.one_le_iff_ne_zero.mpr hzero)]
        simp only [Option.bind_eq_bind, Option.bind_some]
        split
        · split
          · cases cx.reserveContinuation state.continuations with
            | none => rfl
            | some reserved =>
              simp only [reflect?_eq body, storeContinuation?_eq, Option.bind_some]
              rfl
          · rfl
        · exact reflect?_eq body _ _
  | .stashEntry identity body, cx, state => by
      rw [reflect?, reflect]
      split
      · rfl
      · simp only [reflect?_eq body, Option.bind_eq_bind, Option.bind_some]
        rfl
  | .record typeName fields, cx, state => by
      rw [reflect?, reflect, reflectFields?_eq fields]
      rfl
  | .variant enumName variantName fields, cx, state => by
      rw [reflect?, reflect, reflectFields?_eq fields]
      rfl
  | .sequence typeName items, cx, state => by
      rw [reflect?, reflect, reflectItems?_eq items]
      rfl
  | .symbol key unresolved, cx, state => by
      rw [reflect?, reflect]
      split <;> simp [*]
  | .scalar typeName value, cx, state => rfl

theorem reflectFields?_eq : ∀ fields (cx : ReflectionContext) state,
    reflectFields? cx fields state = some (reflectFields cx fields state)
  | [], _, _ => rfl
  | ⟨name, value⟩ :: fields, cx, state => by
      rw [reflectFields?, reflect?_eq value]
      simp only [Option.bind_eq_bind, Option.bind_some, reflectFields?_eq fields]
      rfl

theorem reflectItems?_eq : ∀ items (cx : ReflectionContext) state,
    reflectItems? cx items state = some (reflectItems cx items state)
  | [], _, _ => rfl
  | item :: items, cx, state => by
      rw [reflectItems?, reflectItems]
      split
      · rfl
      · rw [reflect?_eq item]
        simp only [Option.bind_eq_bind, Option.bind_some, reflectItems?_eq items]
        rfl

end

end ReflectionContext

end Sage.Inspector
