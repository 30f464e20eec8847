import Sage.Inspector.Budget
import Mathlib.Algebra.BigOperators.Group.List.Basic
import Mathlib.Algebra.GroupWithZero.Nat

/-!
# Inspector — truncation within the budget

What `sage-reflect` leaves out of a value, and where it says so.  A context has room for one page
beside the visible value: whoever reserves a continuation takes all the nodes that pages may have.

* `Shows` — a node shows a value up to parts that stand under marks; a part under a mark with a
  handle is shown on the page of the handle.
* `Kept`, `boundNode_spec`, `reflect_spec` — what one call leaves of the handles and the pages.
* `Session`, `run_within` — any sequence of calls on one context.
-/

namespace Sage.Inspector

/-! ### Showing a value -/

mutual

def ValueNode.size : ValueNode → Nat
  | .record _ fields => fieldsSize fields + 1
  | .variant _ _ fields => fieldsSize fields + 1
  | .sequence _ items => itemsSize items + 1
  | _ => 1

def fieldsSize : List (ValueField ValueNode) → Nat
  | [] => 0
  | ⟨_, value⟩ :: fields => value.size + fieldsSize fields

def itemsSize : List ValueNode → Nat
  | [] => 0
  | item :: items => item.size + itemsSize items

end

def ValueNode.IsMark : ValueNode → Prop
  | .truncated _ _ => True
  | _ => False

mutual

/-- The second node shows the first, with the pages under `values`. -/
inductive Shows (values : PartialMap String (List ValueNode)) : ValueNode → ValueNode → Prop
  | refl (node : ValueNode) : Shows values node node
  | record {typeName : String} {fields fields' : List (ValueField ValueNode)}
      (h : ShowsFields values (.record typeName) fields fields') :
      Shows values (.record typeName fields) (.record typeName fields')
  | variant {enumName variantName : String} {fields fields' : List (ValueField ValueNode)}
      (h : ShowsFields values (.variant enumName variantName) fields fields') :
      Shows values (.variant enumName variantName fields) (.variant enumName variantName fields')
  | sequence {typeName : String} {items items' : List ValueNode}
      (h : ShowsItems values (.sequence typeName) items items') :
      Shows values (.sequence typeName items) (.sequence typeName items')
  | omitted (node : ValueNode) (summary : String) : Shows values node (.truncated summary none)
  | continued {node page : ValueNode} (summary : String) {handle : String}
      (hpage : values handle = some [page]) (h : Shows values node page) :
      Shows values node (.truncated summary (some handle))

/-- The fields in their order, up to a last run of them under a mark. -/
inductive ShowsFields (values : PartialMap String (List ValueNode)) :
    (List (ValueField ValueNode) → ValueNode) → List (ValueField ValueNode) →
      List (ValueField ValueNode) → Prop
  | nil {omittedNode : List (ValueField ValueNode) → ValueNode} :
      ShowsFields values omittedNode [] []
  | cons {omittedNode : List (ValueField ValueNode) → ValueNode} {name : String}
      {value value' : ValueNode} {fields fields' : List (ValueField ValueNode)}
      (hvalue : Shows values value value') (h : ShowsFields values omittedNode fields fields') :
      ShowsFields values omittedNode (⟨name, value⟩ :: fields) (⟨name, value'⟩ :: fields')
  | rest {omittedNode : List (ValueField ValueNode) → ValueNode}
      {fields : List (ValueField ValueNode)} {mark : ValueNode} (hne : fields ≠ [])
      (hmark : mark.IsMark) (h : Shows values (omittedNode fields) mark) :
      ShowsFields values omittedNode fields [⟨"…", mark⟩]

inductive ShowsItems (values : PartialMap String (List ValueNode)) :
    (List ValueNode → ValueNode) → List ValueNode → List ValueNode → Prop
  | nil {omittedNode : List ValueNode → ValueNode} : ShowsItems values omittedNode [] []
  | cons {omittedNode : List ValueNode → ValueNode} {item item' : ValueNode}
      {items items' : List ValueNode} (hitem : Shows values item item')
      (h : ShowsItems values omittedNode items items') :
      ShowsItems values omittedNode (item :: items) (item' :: items')
  | rest {omittedNode : List ValueNode → ValueNode} {items : List ValueNode} {mark : ValueNode}
      (hne : items ≠ []) (hmark : mark.IsMark) (h : Shows values (omittedNode items) mark) :
      ShowsItems values omittedNode items [mark]

end

section

variable {values values' : PartialMap String (List ValueNode)}

mutual

/-- More pages show no less. -/
theorem Shows.mono (hle : ∀ handle page, values handle = some page → values' handle = some page)
    {node node' : ValueNode} : Shows values node node' → Shows values' node node'
  | .refl node => .refl node
  | .record h => .record (h.mono hle)
  | .variant h => .variant (h.mono hle)
  | .sequence h => .sequence (h.mono hle)
  | .omitted node summary => .omitted node summary
  | .continued summary hpage h => .continued summary (hle _ _ hpage) (h.mono hle)

theorem ShowsFields.mono
    (hle : ∀ handle page, values handle = some page → values' handle = some page)
    {omittedNode : List (ValueField ValueNode) → ValueNode}
    {fields fields' : List (ValueField ValueNode)} :
    ShowsFields values omittedNode fields fields' → ShowsFields values' omittedNode fields fields'
  | .nil => .nil
  | .cons hvalue h => .cons (hvalue.mono hle) (h.mono hle)
  | .rest hne hmark h => .rest hne hmark (h.mono hle)

theorem ShowsItems.mono
    (hle : ∀ handle page, values handle = some page → values' handle = some page)
    {omittedNode : List ValueNode → ValueNode} {items items' : List ValueNode} :
    ShowsItems values omittedNode items items' → ShowsItems values' omittedNode items items'
  | .nil => .nil
  | .cons hitem h => .cons (hitem.mono hle) (h.mono hle)
  | .rest hne hmark h => .rest hne hmark (h.mono hle)

end

theorem Shows.of_empty {node node' : ValueNode} (h : Shows PartialMap.empty node node') :
    Shows values node node' :=
  h.mono fun _ _ hpage => by cases hpage

theorem Shows.isMark {node mark : ValueNode} (h : Shows values mark node) (hmark : mark.IsMark) :
    node.IsMark := by
  cases h with
  | refl => exact hmark
  | record | variant | sequence => exact hmark.elim
  | omitted | continued => trivial

theorem ShowsFields.ne_nil {omittedNode : List (ValueField ValueNode) → ValueNode}
    {fields fields' : List (ValueField ValueNode)}
    (h : ShowsFields values omittedNode fields fields') (hne : fields' ≠ []) : fields ≠ [] := by
  cases h with
  | nil => exact hne
  | cons => exact List.cons_ne_nil _ _
  | rest hfields => exact hfields

theorem ShowsItems.ne_nil {omittedNode : List ValueNode → ValueNode} {items items' : List ValueNode}
    (h : ShowsItems values omittedNode items items') (hne : items' ≠ []) : items ≠ [] := by
  cases h with
  | nil => exact hne
  | cons => exact List.cons_ne_nil _ _
  | rest hitems => exact hitems

mutual

/-- What is cut a second time still shows the whole. -/
theorem Shows.trans {a b c : ValueNode} (hab : Shows values a b) : Shows values b c →
    Shows values a c
  | .refl _ => hab
  | .record h => by
      cases hab with
      | refl => exact .record h
      | record hfields => exact .record (hfields.trans (fun h => .record h) h)
  | .variant h => by
      cases hab with
      | refl => exact .variant h
      | variant hfields => exact .variant (hfields.trans (fun h => .variant h) h)
  | .sequence h => by
      cases hab with
      | refl => exact .sequence h
      | sequence hitems => exact .sequence (hitems.trans (fun h => .sequence h) h)
  | .omitted _ summary => .omitted a summary
  | .continued summary hpage h => .continued summary hpage (hab.trans h)

theorem ShowsFields.trans {omittedNode : List (ValueField ValueNode) → ValueNode}
    (homit : ∀ {fields fields'}, ShowsFields values omittedNode fields fields' →
      Shows values (omittedNode fields) (omittedNode fields'))
    {a b c : List (ValueField ValueNode)} (hab : ShowsFields values omittedNode a b) :
    ShowsFields values omittedNode b c → ShowsFields values omittedNode a c
  | .nil => hab
  | .cons hvalue h => by
      cases hab with
      | cons hvalue' hab => exact .cons (hvalue'.trans hvalue) (hab.trans homit h)
      | rest hne hmark hab =>
        -- the mark of the first cut may be cut again
        cases h with
        | nil => exact .rest hne (hvalue.isMark hmark) (hab.trans hvalue)
        | rest hempty => exact absurd rfl hempty
  | .rest hne hmark h => .rest (hab.ne_nil hne) hmark ((homit hab).trans h)

theorem ShowsItems.trans {omittedNode : List ValueNode → ValueNode}
    (homit : ∀ {items items'}, ShowsItems values omittedNode items items' →
      Shows values (omittedNode items) (omittedNode items'))
    {a b c : List ValueNode} (hab : ShowsItems values omittedNode a b) :
    ShowsItems values omittedNode b c → ShowsItems values omittedNode a c
  | .nil => hab
  | .cons hitem h => by
      cases hab with
      | cons hitem' hab => exact .cons (hitem'.trans hitem) (hab.trans homit h)
      | rest hne hmark hab =>
        cases h with
        | nil => exact .rest hne (hitem.isMark hmark) (hab.trans hitem)
        | rest hempty => exact absurd rfl hempty
  | .rest hne hmark h => .rest (hab.ne_nil hne) hmark ((homit hab).trans h)

end

end

/-! ### One call -/

mutual

/-- What reflecting gives where nothing is left out. -/
def Reflectable.whole (resolver : ReferenceKey → Option SymbolReference) :
    Reflectable → List String → ValueNode
  | .node _ body, active => body.whole resolver active
  | .stashEntry identity body, active =>
      if identity ∈ active then .cycle identity else body.whole resolver (identity :: active)
  | .record typeName fields, active => .record typeName (wholeFields resolver fields active)
  | .variant enumName variantName fields, active =>
      .variant enumName variantName (wholeFields resolver fields active)
  | .sequence typeName items, active => .sequence typeName (wholeItems resolver items active)
  | .symbol key unresolved, _ =>
      match resolver key with
      | some target => .reference target
      | none => .scalar "Symbol" (.string unresolved)
  | .scalar typeName value, _ => .scalar typeName value

def wholeFields (resolver : ReferenceKey → Option SymbolReference) :
    List (ValueField Reflectable) → List String → List (ValueField ValueNode)
  | [], _ => []
  | ⟨name, value⟩ :: fields, active =>
      ⟨name, value.whole resolver active⟩ :: wholeFields resolver fields active

def wholeItems (resolver : ReferenceKey → Option SymbolReference) :
    List Reflectable → List String → List ValueNode
  | [], _ => []
  | item :: items, active => item.whole resolver active :: wholeItems resolver items active

end

/-- No page was reserved yet. -/
structure ContinuationStore.Fresh (limit : Nat) (store : ContinuationStore) : Prop where
  next : store.next = 0
  remaining : store.remainingNodes = limit
  values : store.values = PartialMap.empty

/-- Nothing was reserved, or everything. -/
def ContinuationStore.Ready (limit : Nat) (store : ContinuationStore) : Prop :=
  store.Fresh limit ∨ store.remainingNodes = 0

def firstHandle (continuationPrefix : String) : String := continuationPrefix ++ "_" ++ (0).repr

/-- The store with its only page. -/
def storeWith (continuationPrefix : String) (page : ValueNode) : ContinuationStore :=
  ⟨1, 0, PartialMap.empty.insert (firstHandle continuationPrefix) [page]⟩

/-- What a call does to the store and to the handles of a value: it keeps some of them, or it
stores the only page and leaves its handle. -/
inductive Kept (p : String) (limit : Nat) (store : ContinuationStore) (handles : List String) :
    ContinuationStore → List String → Prop
  | same {handles' : List String} (h : handles'.Sublist handles) :
      Kept p limit store handles store handles'
  | stored {page : ValueNode} (hfresh : store.Fresh limit) (hhandles : handles = [])
      (hsize : page.size ≤ limit) (hpage : page.handles = []) :
      Kept p limit store handles (storeWith p page) [firstHandle p]

namespace Kept

variable {p : String} {limit : Nat} {s s' s'' : ContinuationStore} {a a' b b' : List String}

theorem mono (h : Kept p limit s a s' a') (handle : String) (page : List ValueNode)
    (hpage : s.values handle = some page) : s'.values handle = some page := by
  cases h with
  | same => exact hpage
  | stored hfresh =>
    rw [hfresh.values] at hpage
    cases hpage

theorem ready (h : Kept p limit s a s' a') (hs : s.Ready limit) : s'.Ready limit := by
  cases h with
  | same => exact hs
  | stored => exact .inr rfl

theorem eq_of_spent (h : Kept p limit s a s' a') (hlimit : 0 < limit)
    (hs : s.remainingNodes = 0) : s' = s ∧ a'.Sublist a := by
  cases h with
  | same hsub => exact ⟨rfl, hsub⟩
  | stored hfresh =>
    have hremaining := hfresh.remaining
    omega

/-- A store that was not reserved stays free of handles until the page is stored. -/
theorem fresh (h : Kept p limit s a s' a') (hlimit : 0 < limit) (hfresh : s'.Fresh limit) :
    s' = s ∧ a'.Sublist a := by
  cases h with
  | same hsub => exact ⟨rfl, hsub⟩
  | stored =>
    have hremaining : 0 = limit := hfresh.remaining
    omega

/-- Two calls after one another, on two parts of a value. -/
theorem append (hlimit : 0 < limit) (h : Kept p limit s a s' a') (h' : Kept p limit s' b s'' b')
    (hfresh : s.Fresh limit → a = [] ∧ b = []) : Kept p limit s (a ++ b) s'' (a' ++ b') := by
  cases h with
  | same hsub =>
    cases h' with
    | same hsub' => exact .same (hsub.append hsub')
    | stored hs _ hsize hpage =>
      obtain ⟨rfl, rfl⟩ := hfresh hs
      rw [List.sublist_nil.mp hsub]
      exact .stored hs rfl hsize hpage
  | stored hs _ hsize hpage =>
    obtain ⟨rfl, rfl⟩ := hfresh hs
    obtain ⟨rfl, hsub⟩ := h'.eq_of_spent hlimit rfl
    rw [List.sublist_nil.mp hsub, List.append_nil]
    exact .stored hs rfl hsize hpage

end Kept

namespace ReflectionContext

variable {p : String} {limit : Nat} {s : ContinuationStore}

/-- A node and a store that a value and a store may become. -/
structure Becomes (p : String) (limit : Nat) (s : ContinuationStore) (node : ValueNode)
    (r : ValueNode × ContinuationStore) : Prop where
  kept : Kept p limit s node.handles r.2 r.1.handles
  shows : Shows r.2.values node r.1

/-- A cutoff that leaves a mark. -/
def Cuts (p : String) (limit : Nat)
    (cutoff : String → ValueNode → ContinuationStore → ValueNode × ContinuationStore) : Prop :=
  ∀ summary value s, s.Ready limit → (s.Fresh limit → value.handles = []) →
    (cutoff summary value s).1.IsMark ∧ Becomes p limit s value (cutoff summary value s)

theorem size_of_isMark {mark : ValueNode} (h : mark.IsMark) : mark.size = 1 := by
  cases mark with
  | truncated => rfl
  | _ => exact h.elim

/-- The nodes of a result and those left make up the budget. -/
structure Bounded (p : String) (limit : Nat) (s : ContinuationStore) (budget : Nat)
    (node : ValueNode) (r : ValueNode × Nat × ContinuationStore) : Prop where
  size : r.1.size + r.2.1 = budget
  kept : Kept p limit s node.handles r.2.2 r.1.handles
  shows : Shows r.2.2.values node r.1

structure BoundedFields (p : String) (limit : Nat)
    (omittedNode : List (ValueField ValueNode) → ValueNode) (s : ContinuationStore) (budget : Nat)
    (fields : List (ValueField ValueNode))
    (r : List (ValueField ValueNode) × Nat × ContinuationStore) : Prop where
  size : fieldsSize r.1 + r.2.1 = budget
  kept : Kept p limit s (fieldHandles fields) r.2.2 (fieldHandles r.1)
  shows : ShowsFields r.2.2.values omittedNode fields r.1

structure BoundedItems (p : String) (limit : Nat) (omittedNode : List ValueNode → ValueNode)
    (s : ContinuationStore) (budget : Nat) (items : List ValueNode)
    (r : List ValueNode × Nat × ContinuationStore) : Prop where
  size : itemsSize r.1 + r.2.1 = budget
  kept : Kept p limit s (itemHandles items) r.2.2 (itemHandles r.1)
  shows : ShowsItems r.2.2.values omittedNode items r.1

section

variable {cutoff : String → ValueNode → ContinuationStore → ValueNode × ContinuationStore}

theorem Becomes.bounded {node : ValueNode} {budget : Nat} {r : ValueNode × ContinuationStore}
    (hmark : r.1.IsMark) (h : Becomes p limit s node r) :
    Bounded p limit s (budget + 1) node (r.1, budget, r.2) :=
  ⟨by rw [size_of_isMark hmark, Nat.add_comm], h.kept, h.shows⟩

theorem bounded_refl {node : ValueNode} (hsize : node.size = 1) (budget : Nat) :
    Bounded p limit s (budget + 1) node (node, budget, s) :=
  ⟨by rw [hsize, Nat.add_comm], .same (.refl _), .refl node⟩

mutual

/-- With one node or more a result fits, and every part that is left out is under a mark. -/
theorem boundNode_spec (hlimit : 0 < limit) (hcut : Cuts p limit cutoff) :
    ∀ node budget s, 0 < budget → s.Ready limit → (s.Fresh limit → node.handles = []) →
      Bounded p limit s budget node (boundNode cutoff node budget s)
  | .record typeName fields, budget + 1, s, _, hs, hfresh => by
      rw [boundNode]
      by_cases hnone : (!fields.isEmpty) = true ∧ budget = 0
      · rw [if_pos hnone]
        obtain ⟨hmark, hbecomes⟩ :=
          hcut "nested value omitted" (.record typeName fields) s hs hfresh
        exact hbecomes.bounded hmark
      · rw [if_neg hnone]
        have hpos : fields ≠ [] → 0 < budget := by
          cases fields with
          | nil => intro h; exact absurd rfl h
          | cons => intro _; simp at hnone; omega
        have hfields := boundFields_spec hlimit hcut (.record typeName) (fun _ => rfl) fields budget
          s hpos hs hfresh
        exact ⟨(Nat.add_right_comm _ 1 _).trans (congrArg (· + 1) hfields.size), hfields.kept,
           .record hfields.shows⟩
  | .variant enumName variantName fields, budget + 1, s, _, hs, hfresh => by
      rw [boundNode]
      by_cases hnone : (!fields.isEmpty) = true ∧ budget = 0
      · rw [if_pos hnone]
        obtain ⟨hmark, hbecomes⟩ :=
          hcut "nested value omitted" (.variant enumName variantName fields) s hs hfresh
        exact hbecomes.bounded hmark
      · rw [if_neg hnone]
        have hpos : fields ≠ [] → 0 < budget := by
          cases fields with
          | nil => intro h; exact absurd rfl h
          | cons => intro _; simp at hnone; omega
        have hfields := boundFields_spec hlimit hcut (.variant enumName variantName) (fun _ => rfl)
          fields budget s hpos hs hfresh
        exact ⟨(Nat.add_right_comm _ 1 _).trans (congrArg (· + 1) hfields.size), hfields.kept,
           .variant hfields.shows⟩
  | .sequence typeName items, budget + 1, s, _, hs, hfresh => by
      rw [boundNode]
      by_cases hnone : (!items.isEmpty) = true ∧ budget = 0
      · rw [if_pos hnone]
        obtain ⟨hmark, hbecomes⟩ :=
          hcut "nested value omitted" (.sequence typeName items) s hs hfresh
        exact hbecomes.bounded hmark
      · rw [if_neg hnone]
        have hpos : items ≠ [] → 0 < budget := by
          cases items with
          | nil => intro h; exact absurd rfl h
          | cons => intro _; simp at hnone; omega
        have hitems := boundItems_spec hlimit hcut (.sequence typeName) (fun _ => rfl) items budget
          s hpos hs hfresh
        exact ⟨(Nat.add_right_comm _ 1 _).trans (congrArg (· + 1) hitems.size), hitems.kept,
           .sequence hitems.shows⟩
  | .scalar typeName value, budget + 1, s, _, _, _ => bounded_refl rfl budget
  | .reference target, budget + 1, s, _, _, _ => bounded_refl rfl budget
  | .cycle identity, budget + 1, s, _, _, _ => bounded_refl rfl budget
  | .truncated summary continuation, budget + 1, s, _, _, _ => bounded_refl rfl budget

theorem boundFields_spec (hlimit : 0 < limit) (hcut : Cuts p limit cutoff)
    (omittedNode : List (ValueField ValueNode) → ValueNode)
    (homit : ∀ fields, (omittedNode fields).handles = fieldHandles fields) :
    ∀ fields budget s, (fields ≠ [] → 0 < budget) → s.Ready limit →
      (s.Fresh limit → fieldHandles fields = []) →
      BoundedFields p limit omittedNode s budget fields
        (boundFields cutoff omittedNode fields budget s)
  | [], budget, s, _, _, _ => by
      rw [boundFields]
      exact ⟨Nat.zero_add budget, .same (.refl _), .nil⟩
  | ⟨name, value⟩ :: source, budget, s, hpos, hs, hfresh => by
      have hpos := hpos (List.cons_ne_nil _ _)
      rw [boundFields]
      by_cases hmore : (!source.isEmpty) = true ∧ budget ≤ 1
      · have hone : budget = 1 := by omega
        rw [if_pos hmore, if_pos hone]
        obtain ⟨hmark, hbecomes⟩ := hcut "additional fields omitted"
          (omittedNode (⟨name, value⟩ :: source)) s hs fun h => (homit _).trans (hfresh h)
        generalize cutoff "additional fields omitted" (omittedNode (⟨name, value⟩ :: source)) s = r
          at hmark hbecomes
        obtain ⟨mark, s'⟩ := r
        have hkept := hbecomes.kept
        rw [homit] at hkept
        refine ⟨?_, ?_, .rest (List.cons_ne_nil _ _) hmark hbecomes.shows⟩
        · rw [hone]
          exact size_of_isMark hmark
        · rw [← List.append_nil mark.handles] at hkept
          exact hkept
      · rw [if_neg hmore, if_neg (Nat.ne_of_gt hpos)]
        -- a node is left for the value, beside the one in reserve
        have hreserve : (if (!source.isEmpty) = true then 1 else 0) < budget := by
          split
          · next hne => exact Nat.lt_of_not_le fun hle => hmore ⟨hne, hle⟩
          · exact hpos
        dsimp only
        generalize hres : (if (!source.isEmpty) = true then 1 else 0) = reserve at hreserve ⊢
        have hfreshValue : s.Fresh limit → value.handles = [] ∧ fieldHandles source = [] :=
          fun h => List.append_eq_nil_iff.mp (hfresh h)
        have hvalue := boundNode_spec hlimit hcut value (budget - reserve) s
          (Nat.sub_pos_of_lt hreserve) hs fun h => (hfreshValue h).1
        generalize boundNode cutoff value (budget - reserve) s = r at hvalue
        obtain ⟨value', left, s'⟩ := r
        have hsource := boundFields_spec hlimit hcut omittedNode homit source (left + reserve) s'
          (fun hne => by
            rw [if_pos (by simpa using hne)] at hres
            omega)
          (hvalue.kept.ready hs)
          (fun h => by
            obtain ⟨rfl, -⟩ := hvalue.kept.fresh hlimit h
            exact (hfreshValue h).2)
        generalize boundFields cutoff omittedNode source (left + reserve) s' = r at hsource
        obtain ⟨fields', left', s''⟩ := r
        refine ⟨?_, hvalue.kept.append hlimit hsource.kept hfreshValue,
          .cons (hvalue.shows.mono hsource.kept.mono) hsource.shows⟩
        have hsize : value'.size + left = budget - reserve := hvalue.size
        have hsizes : fieldsSize fields' + left' = left + reserve := hsource.size
        change value'.size + fieldsSize fields' + left' = budget
        omega

theorem boundItems_spec (hlimit : 0 < limit) (hcut : Cuts p limit cutoff)
    (omittedNode : List ValueNode → ValueNode)
    (homit : ∀ items, (omittedNode items).handles = itemHandles items) :
    ∀ items budget s, (items ≠ [] → 0 < budget) → s.Ready limit →
      (s.Fresh limit → itemHandles items = []) →
      BoundedItems p limit omittedNode s budget items (boundItems cutoff omittedNode items budget s)
  | [], budget, s, _, _, _ => by
      rw [boundItems]
      exact ⟨Nat.zero_add budget, .same (.refl _), .nil⟩
  | item :: source, budget, s, hpos, hs, hfresh => by
      have hpos := hpos (List.cons_ne_nil _ _)
      rw [boundItems]
      by_cases hmore : (!source.isEmpty) = true ∧ budget ≤ 1
      · have hone : budget = 1 := by omega
        rw [if_pos hmore, if_pos hone]
        obtain ⟨hmark, hbecomes⟩ := hcut "additional sequence elements omitted"
          (omittedNode (item :: source)) s hs fun h => (homit _).trans (hfresh h)
        generalize
          cutoff "additional sequence elements omitted" (omittedNode (item :: source)) s = r
          at hmark hbecomes
        obtain ⟨mark, s'⟩ := r
        have hkept := hbecomes.kept
        rw [homit] at hkept
        refine ⟨?_, ?_, .rest (List.cons_ne_nil _ _) hmark hbecomes.shows⟩
        · rw [hone]
          exact size_of_isMark hmark
        · rw [← List.append_nil mark.handles] at hkept
          exact hkept
      · rw [if_neg hmore, if_neg (Nat.ne_of_gt hpos)]
        have hreserve : (if (!source.isEmpty) = true then 1 else 0) < budget := by
          split
          · next hne => exact Nat.lt_of_not_le fun hle => hmore ⟨hne, hle⟩
          · exact hpos
        dsimp only
        generalize hres : (if (!source.isEmpty) = true then 1 else 0) = reserve at hreserve ⊢
        have hfreshItem : s.Fresh limit → item.handles = [] ∧ itemHandles source = [] :=
          fun h => List.append_eq_nil_iff.mp (hfresh h)
        have hitem := boundNode_spec hlimit hcut item (budget - reserve) s
          (Nat.sub_pos_of_lt hreserve) hs fun h => (hfreshItem h).1
        generalize boundNode cutoff item (budget - reserve) s = r at hitem
        obtain ⟨item', left, s'⟩ := r
        have hsource := boundItems_spec hlimit hcut omittedNode homit source (left + reserve) s'
          (fun hne => by
            rw [if_pos (by simpa using hne)] at hres
            omega)
          (hitem.kept.ready hs)
          (fun h => by
            obtain ⟨rfl, -⟩ := hitem.kept.fresh hlimit h
            exact (hfreshItem h).2)
        generalize boundItems cutoff omittedNode source (left + reserve) s' = r at hsource
        obtain ⟨items', left', s''⟩ := r
        refine ⟨?_, hitem.kept.append hlimit hsource.kept hfreshItem,
          .cons (hitem.shows.mono hsource.kept.mono) hsource.shows⟩
        have hsize : item'.size + left = budget - reserve := hitem.size
        have hsizes : itemsSize items' + left' = left + reserve := hsource.size
        change item'.size + itemsSize items' + left' = budget
        omega

end

end

theorem cuts_terminal : Cuts p limit terminalCutoff := fun summary value _ _ _ =>
  ⟨trivial, .same (List.nil_sublist _), .omitted value summary⟩

theorem reserveContinuation_fresh (cx : ReflectionContext) (hlimit : 0 < limit)
    (h : s.Fresh limit) : cx.reserveContinuation s =
      some (firstHandle cx.continuationPrefix, limit, ⟨1, 0, PartialMap.empty⟩) := by
  rw [reserveContinuation, h.remaining, if_pos hlimit, h.next, h.values]
  rfl

theorem reserveContinuation_spent (cx : ReflectionContext) (h : s.remainingNodes = 0) :
    cx.reserveContinuation s = none := by
  rw [reserveContinuation, h]
  rfl

/-- A page fits in what was reserved for it and shows its value. -/
theorem storeContinuation_spec (hlimit : 0 < limit) (summary handle : String) (value : ValueNode)
    (hs : s.remainingNodes = 0) :
    ∃ page, storeContinuation summary handle limit value s =
        (.truncated summary (some handle), { s with values := s.values.insert handle [page] }) ∧
      page.size ≤ limit ∧ page.handles.Sublist value.handles ∧ Shows s.values value page := by
  have hpage := boundNode_spec (p := handle) hlimit cuts_terminal value limit s hlimit (.inr hs)
    fun hfresh => by
      have hremaining := hfresh.remaining
      omega
  rw [storeContinuation]
  generalize boundNode terminalCutoff value limit s = r at hpage
  obtain ⟨page, left, s'⟩ := r
  obtain ⟨rfl, hsub⟩ := hpage.kept.eq_of_spent hlimit hs
  exact ⟨page, rfl, Nat.le.intro hpage.size, hsub, hpage.shows⟩

theorem cuts_freeze (cx : ReflectionContext) (hlimit : 0 < limit) :
    Cuts cx.continuationPrefix limit cx.freezeContinuation := by
  intro summary value s hs hfresh
  rcases hs with hs | hs
  · rw [freezeContinuation, cx.reserveContinuation_fresh hlimit hs]
    obtain ⟨page, hstore, hsize, hsub, hshows⟩ := storeContinuation_spec hlimit summary
      (firstHandle cx.continuationPrefix) value (s := ⟨1, 0, PartialMap.empty⟩) rfl
    dsimp only
    rw [hstore]
    rw [hfresh hs] at hsub
    refine ⟨trivial, ?_, ?_⟩
    · exact .stored hs (hfresh hs) hsize (List.sublist_nil.mp hsub)
    · exact .continued summary (Function.update_self ..) hshows.of_empty
  · rw [freezeContinuation, cx.reserveContinuation_spent hs]
    exact ⟨trivial, .same (List.nil_sublist _), .omitted value summary⟩

/-- The visible value fits in the limit. -/
theorem finish_spec (cx : ReflectionContext) (hlimit : 0 < cx.maxNodes) (value : ValueNode)
    (hs : s.Ready cx.maxNodes) (hfresh : s.Fresh cx.maxNodes → value.handles = []) :
    (cx.finish value s).1.size ≤ cx.maxNodes ∧
      Becomes cx.continuationPrefix cx.maxNodes s value (cx.finish value s) := by
  rw [finish, if_neg (Nat.ne_of_gt hlimit)]
  have hnode := boundNode_spec hlimit (cx.cuts_freeze hlimit) value cx.maxNodes s hlimit hs hfresh
  exact ⟨Nat.le.intro hnode.size, hnode.kept, hnode.shows⟩

/-- What reflecting leaves: the value shown, with at most one new handle. -/
structure Reflected (p : String) (limit : Nat) (state : ReflectionState) (whole : ValueNode)
    (r : ValueNode × ReflectionState) : Prop where
  kept : Kept p limit state.continuations [] r.2.continuations r.1.handles
  shows : Shows r.2.continuations.values whole r.1
  active : r.2.activeStashEntries = state.activeStashEntries

structure ReflectedFields (p : String) (limit : Nat) (state : ReflectionState)
    (omittedNode : List (ValueField ValueNode) → ValueNode) (whole : List (ValueField ValueNode))
    (r : List (ValueField ValueNode) × ReflectionState) : Prop where
  kept : Kept p limit state.continuations [] r.2.continuations (fieldHandles r.1)
  shows : ShowsFields r.2.continuations.values omittedNode whole r.1
  active : r.2.activeStashEntries = state.activeStashEntries

structure ReflectedItems (p : String) (limit : Nat) (state : ReflectionState)
    (omittedNode : List ValueNode → ValueNode) (whole : List ValueNode)
    (r : List ValueNode × ReflectionState) : Prop where
  kept : Kept p limit state.continuations [] r.2.continuations (itemHandles r.1)
  shows : ShowsItems r.2.continuations.values omittedNode whole r.1
  active : r.2.activeStashEntries = state.activeStashEntries

theorem reflected_omitted (state : ReflectionState) (whole : ValueNode) (summary : String) :
    Reflected p limit state whole (terminalTruncation summary, state) :=
  ⟨.same (.refl _), .omitted whole summary, rfl⟩

mutual

theorem reflect_spec (hlimit : 0 < limit) : ∀ value (cx : ReflectionContext) state,
    state.continuations.Ready limit →
      Reflected cx.continuationPrefix limit state
        (value.whole cx.resolver state.activeStashEntries) (reflect cx value state)
  | .node summary body, cx, state, hs => by
      rw [reflect]
      by_cases hnone : state.remainingBuildNodes = 0
      · rw [if_pos hnone]
        exact reflected_omitted state _ _
      rw [if_neg hnone]
      by_cases hdepth : cx.maxDepth ≤ cx.depth
      · dsimp only
        rw [if_pos hdepth]
        by_cases hallow : cx.allowContinuations = true
        · rw [if_pos hallow]
          rcases hs with hs | hs
          · rw [cx.reserveContinuation_fresh hlimit hs]
            -- the page is reflected while everything is reserved for it
            have hbody := reflect_spec hlimit body
              { cx with depth := 0, allowContinuations := false }
              ⟨⟨1, 0, PartialMap.empty⟩, state.remainingBuildNodes - 1, state.activeStashEntries⟩
              (.inr rfl)
            dsimp only at hbody ⊢
            generalize reflect { cx with depth := 0, allowContinuations := false } body
              ⟨⟨1, 0, PartialMap.empty⟩, state.remainingBuildNodes - 1, state.activeStashEntries⟩
              = r at hbody ⊢
            obtain ⟨value, store, remaining, active⟩ := r
            obtain ⟨rfl, hsub⟩ := hbody.kept.eq_of_spent hlimit rfl
            obtain ⟨page, hstore, hsize, hpage, hshows⟩ := storeContinuation_spec hlimit summary
              (firstHandle cx.continuationPrefix) value (s := ⟨1, 0, PartialMap.empty⟩) rfl
            dsimp only
            rw [hstore]
            rw [List.sublist_nil.mp hsub] at hpage
            refine ⟨.stored hs rfl hsize (List.sublist_nil.mp hpage), ?_, hbody.active⟩
            exact .continued summary (Function.update_self ..)
              (hbody.shows.trans hshows).of_empty
          · rw [cx.reserveContinuation_spent hs]
            exact ⟨.same (.refl _), .omitted _ summary, rfl⟩
        · rw [if_neg hallow]
          exact ⟨.same (.refl _), .omitted _ summary, rfl⟩
      · dsimp only
        rw [if_neg hdepth]
        obtain ⟨hkept, hshows, hactive⟩ := reflect_spec hlimit body
          { cx with depth := cx.depth + 1 }
          { state with remainingBuildNodes := state.remainingBuildNodes - 1 } hs
        exact ⟨hkept, hshows, hactive⟩
  | .stashEntry identity body, cx, state, hs => by
      rw [reflect, Reflectable.whole]
      by_cases hcycle : identity ∈ state.activeStashEntries
      · rw [if_pos hcycle, if_pos hcycle]
        exact ⟨.same (.refl _), .refl _, rfl⟩
      · rw [if_neg hcycle, if_neg hcycle]
        obtain ⟨hkept, hshows, hactive⟩ := reflect_spec hlimit body cx
          { state with activeStashEntries := identity :: state.activeStashEntries } hs
        refine ⟨hkept, hshows, ?_⟩
        dsimp only at hactive ⊢
        rw [hactive, List.erase_cons_head]
  | .record typeName fields, cx, state, hs => by
      rw [reflect, Reflectable.whole]
      have h := reflectFields_spec hlimit fields (.record typeName) cx state hs
      exact ⟨h.kept, .record h.shows, h.active⟩
  | .variant enumName variantName fields, cx, state, hs => by
      rw [reflect, Reflectable.whole]
      have h := reflectFields_spec hlimit fields (.variant enumName variantName) cx state hs
      exact ⟨h.kept, .variant h.shows, h.active⟩
  | .sequence typeName items, cx, state, hs => by
      rw [reflect, Reflectable.whole]
      have h := reflectItems_spec hlimit items (.sequence typeName) cx state hs
      exact ⟨h.kept, .sequence h.shows, h.active⟩
  | .symbol key unresolved, cx, state, hs => by
      rw [reflect, Reflectable.whole]
      cases cx.resolver key with
      | none => exact ⟨.same (.refl _), .refl _, rfl⟩
      | some target => exact ⟨.same (.refl _), .refl _, rfl⟩
  | .scalar typeName value, cx, state, hs => ⟨.same (.refl _), .refl _, rfl⟩

theorem reflectFields_spec (hlimit : 0 < limit) : ∀ fields
    (omittedNode : List (ValueField ValueNode) → ValueNode) (cx : ReflectionContext) state,
    state.continuations.Ready limit →
      ReflectedFields cx.continuationPrefix limit state omittedNode
        (wholeFields cx.resolver fields state.activeStashEntries) (reflectFields cx fields state)
  | [], _, _, _, _ => ⟨.same (.refl _), .nil, rfl⟩
  | ⟨name, value⟩ :: fields, omittedNode, cx, state, hs => by
      rw [reflectFields, wholeFields]
      have hvalue := reflect_spec hlimit value cx state hs
      generalize reflect cx value state = r at hvalue
      obtain ⟨value', state'⟩ := r
      have hfields := reflectFields_spec hlimit fields omittedNode cx state' (hvalue.kept.ready hs)
      have hactive : state'.activeStashEntries = state.activeStashEntries := hvalue.active
      rw [hactive] at hfields
      refine ⟨hvalue.kept.append hlimit hfields.kept fun _ => ⟨rfl, rfl⟩,
        .cons (hvalue.shows.mono hfields.kept.mono) hfields.shows, hfields.active.trans hactive⟩

theorem reflectItems_spec (hlimit : 0 < limit) : ∀ items
    (omittedNode : List ValueNode → ValueNode) (cx : ReflectionContext) state,
    state.continuations.Ready limit →
      ReflectedItems cx.continuationPrefix limit state omittedNode
        (wholeItems cx.resolver items state.activeStashEntries) (reflectItems cx items state)
  | [], _, _, _, _ => ⟨.same (.refl _), .nil, rfl⟩
  | item :: items, omittedNode, cx, state, hs => by
      rw [reflectItems, wholeItems]
      by_cases hnone : state.remainingBuildNodes = 0
      · rw [if_pos hnone]
        exact ⟨.same (.refl _), .rest (List.cons_ne_nil _ _) trivial (.omitted _ _), rfl⟩
      rw [if_neg hnone]
      have hitem := reflect_spec hlimit item cx state hs
      generalize reflect cx item state = r at hitem
      obtain ⟨item', state'⟩ := r
      have hitems := reflectItems_spec hlimit items omittedNode cx state' (hitem.kept.ready hs)
      have hactive : state'.activeStashEntries = state.activeStashEntries := hitem.active
      rw [hactive] at hitems
      refine ⟨hitem.kept.append hlimit hitems.kept fun _ => ⟨rfl, rfl⟩,
        .cons (hitem.shows.mono hitems.kept.mono) hitems.shows, hitems.active.trans hactive⟩

end

end ReflectionContext

/-! ### A context -/

/-- What a caller can do with a context: reflect a value, and finish what was reflected. -/
inductive Call where
  | reflect (value : Reflectable)
  | finish (index : Nat)

/-- A context with what its calls gave: each reflected value that is not finished yet, behind the
whole value, and each visible value, behind the reflected one. -/
structure Session where
  state : ReflectionState
  reflected : List (ValueNode × ValueNode)
  finished : List (ValueNode × ValueNode)

namespace Session

def call (cx : ReflectionContext) (session : Session) : Call → Option Session
  | .reflect value => do
      let (raw, state) ← cx.reflect? value session.state
      return { session with
        state
        reflected := (value.whole cx.resolver [], raw) :: session.reflected }
  | .finish index =>
      match session.reflected[index]? with
      | none => some session
      | some (_, raw) => do
          let (visible, store) ← cx.finish? raw session.state.continuations
          return {
            state := { session.state with continuations := store }
            reflected := session.reflected.eraseIdx index
            finished := (raw, visible) :: session.finished }

/-- A context from its creation through some calls. -/
def run (maxDepth maxNodes : Nat) (continuationPrefix : String)
    (resolver : ReferenceKey → Option SymbolReference) (calls : List Call) : Option Session :=
  let (cx, state) := ReflectionContext.withContinuationPrefix maxDepth maxNodes continuationPrefix
    resolver
  calls.foldlM (call cx) ⟨state, [], []⟩

/-- The handles in everything that was made with the context and is still there. -/
def handles (session : Session) : List String :=
  session.reflected.flatMap (fun value => value.2.handles) ++
    session.finished.flatMap (fun value => value.2.handles)

/-- The nodes of the pages under some handles. -/
def pagesSize (values : PartialMap String (List ValueNode)) (handles : List String) : Nat :=
  (handles.map fun handle => itemsSize ((values handle).getD [])).sum

/-- The results of a context are within its limit, and nothing is left out without a mark. -/
structure Within (limit : Nat) (session : Session) : Prop where
  shows : ∀ value ∈ session.reflected, Shows session.state.continuations.values value.1 value.2
  visible : ∀ value ∈ session.finished, value.2.size ≤ limit ∧
    Shows session.state.continuations.values value.1 value.2
  pages : ∀ handles : List String, handles.Nodup →
    pagesSize session.state.continuations.values handles ≤ limit
  stored : ∀ handle ∈ session.handles, ∃ page,
    session.state.continuations.values handle = some [page]
  terminal : ∀ handle page, session.state.continuations.values handle = some page →
    itemHandles page = []
  distinct : session.handles.Nodup

/-! ### Runs -/

/-- The store and all handles that are there: nothing is reserved and there is no handle, or there
is one page and at most one handle. -/
inductive Accounts (p : String) (limit : Nat) : ContinuationStore → List String → Prop
  | fresh {store : ContinuationStore} (h : store.Fresh limit) : Accounts p limit store []
  | stored {page : ValueNode} {handles : List String} (hsize : page.size ≤ limit)
      (hpage : page.handles = []) (hhandles : handles.Subperm [firstHandle p]) :
      Accounts p limit (storeWith p page) handles

namespace Accounts

variable {p : String} {limit : Nat} {s s' : ContinuationStore}
  {a a' rest handles handles' : List String}

theorem ready (h : Accounts p limit s handles) : s.Ready limit := by
  cases h with
  | fresh h => exact .inl h
  | stored => exact .inr rfl

theorem eq_nil (hlimit : 0 < limit) (h : Accounts p limit s handles) (hfresh : s.Fresh limit) :
    handles = [] := by
  cases h with
  | fresh => rfl
  | stored =>
    have hremaining : 0 = limit := hfresh.remaining
    omega

/-- A call replaces some of the handles by what it keeps of them. -/
theorem step (hlimit : 0 < limit) (h : Accounts p limit s handles) (hkept : Kept p limit s a s' a')
    (hbefore : (a ++ rest).Perm handles) (hafter : handles'.Perm (a' ++ rest)) :
    Accounts p limit s' handles' := by
  cases h with
  | fresh hfresh =>
    obtain ⟨rfl, rfl⟩ := List.append_eq_nil_iff.mp hbefore.eq_nil
    rw [List.append_nil] at hafter
    cases hkept with
    | same hsub =>
      rw [List.sublist_nil.mp hsub] at hafter
      rw [hafter.eq_nil]
      exact .fresh hfresh
    | stored _ _ hsize hpage => exact .stored hsize hpage hafter.subperm
  | stored hsize hpage hhandles =>
    obtain ⟨rfl, hsub⟩ := hkept.eq_of_spent hlimit rfl
    have hle : handles'.Subperm handles :=
      hafter.subperm.trans ((hsub.append_right rest).subperm.trans hbefore.subperm)
    exact .stored hsize hpage (hle.trans hhandles)

theorem nodup (h : Accounts p limit s handles) : handles.Nodup := by
  cases h with
  | fresh => exact List.nodup_nil
  | stored _ _ hhandles =>
    obtain ⟨kept, hperm, hsub⟩ := hhandles
    exact hperm.nodup (hsub.nodup (List.nodup_cons.mpr ⟨List.not_mem_nil, List.nodup_nil⟩))

theorem stored_of_mem (h : Accounts p limit s handles) :
    ∀ handle ∈ handles, ∃ page, s.values handle = some [page] := by
  intro handle hmem
  cases h with
  | fresh => exact absurd hmem List.not_mem_nil
  | stored _ _ hhandles =>
    rw [List.mem_singleton.mp (hhandles.subset hmem)]
    exact ⟨_, Function.update_self ..⟩

theorem terminal (h : Accounts p limit s handles) (handle : String) (page : List ValueNode)
    (hget : s.values handle = some page) : itemHandles page = [] := by
  cases h with
  | fresh hfresh =>
    rw [hfresh.values] at hget
    cases hget
  | stored _ hpage =>
    obtain ⟨-, rfl⟩ | ⟨-, hget⟩ := PartialMap.insert_eq_some hget
    · exact (List.append_nil _).trans hpage
    · cases hget

theorem pagesSize_le (h : Accounts p limit s handles) :
    ∀ keys : List String, keys.Nodup → pagesSize s.values keys ≤ limit := by
  intro keys hnodup
  cases h with
  | fresh hfresh =>
    have hzero : pagesSize s.values keys = 0 := by
      rw [pagesSize, hfresh.values]
      refine List.sum_eq_zero fun n hn => ?_
      obtain ⟨handle, -, rfl⟩ := List.mem_map.mp hn
      rfl
    rw [hzero]
    exact Nat.zero_le limit
  | @stored page _ hsize _ _ =>
    -- at most one of the keys is that of the page
    suffices hle : pagesSize (storeWith p page).values keys ≤
        if firstHandle p ∈ keys then page.size else 0 by
      refine Nat.le_trans hle ?_
      split
      · exact hsize
      · exact Nat.zero_le limit
    induction keys with
    | nil => exact Nat.zero_le _
    | cons key keys ih =>
      obtain ⟨hnew, hnodup⟩ := List.nodup_cons.mp hnodup
      have hrest := ih hnodup
      have hcons : pagesSize (storeWith p page).values (key :: keys) =
          itemsSize (((storeWith p page).values key).getD []) +
            pagesSize (storeWith p page).values keys := rfl
      rw [hcons]
      by_cases hkey : key = firstHandle p
      · subst hkey
        rw [if_neg hnew] at hrest
        rw [if_pos List.mem_cons_self]
        have hget : (storeWith p page).values (firstHandle p) = some [page] :=
          Function.update_self ..
        rw [hget, Nat.le_zero.mp hrest]
        exact Nat.le_refl _
      · have hget : (storeWith p page).values key = none := Function.update_of_ne hkey ..
        rw [hget]
        have hiff : firstHandle p ∈ key :: keys ↔ firstHandle p ∈ keys := by
          rw [List.mem_cons, or_iff_right (Ne.symm hkey)]
        simp only [hiff]
        exact (Nat.zero_add _).trans_le hrest

end Accounts

variable {cx : ReflectionContext} {session : Session}

/-- The invariant of the calls. -/
structure Sound (cx : ReflectionContext) (session : Session) : Prop where
  active : session.state.activeStashEntries = []
  accounts : Accounts cx.continuationPrefix cx.maxNodes session.state.continuations session.handles
  shows : ∀ value ∈ session.reflected, Shows session.state.continuations.values value.1 value.2
  visible : ∀ value ∈ session.finished, value.2.size ≤ cx.maxNodes ∧
    Shows session.state.continuations.values value.1 value.2

theorem Sound.within (h : Sound cx session) : session.Within cx.maxNodes where
  shows := h.shows
  visible := h.visible
  pages := h.accounts.pagesSize_le
  stored := h.accounts.stored_of_mem
  terminal := h.accounts.terminal
  distinct := h.accounts.nodup

theorem Sound.reflect (hlimit : 0 < cx.maxNodes) (h : Sound cx session) (value : Reflectable) :
    ∃ session', session.call cx (.reflect value) = some session' ∧ Sound cx session' := by
  have hspec := cx.reflect_spec hlimit value session.state h.accounts.ready
  rw [call, cx.reflect?_eq]
  refine ⟨_, rfl, hspec.active.trans h.active, ?_, ?_, ?_⟩
  · refine h.accounts.step hlimit hspec.kept (.refl _) ?_
    exact .of_eq (List.append_assoc ..)
  · rintro value' hmem
    obtain rfl | hmem := List.mem_cons.mp hmem
    · rw [← h.active]
      exact hspec.shows
    · exact (h.shows value' hmem).mono hspec.kept.mono
  · intro value' hmem
    obtain ⟨hsize, hshows⟩ := h.visible value' hmem
    exact ⟨hsize, hshows.mono hspec.kept.mono⟩

theorem Sound.finish (hlimit : 0 < cx.maxNodes) (h : Sound cx session) (index : Nat) :
    ∃ session', session.call cx (.finish index) = some session' ∧ Sound cx session' := by
  rw [call]
  cases hget : session.reflected[index]? with
  | none => exact ⟨session, rfl, h⟩
  | some value =>
    obtain ⟨whole, raw⟩ := value
    obtain ⟨hindex, hvalue⟩ := List.getElem?_eq_some_iff.mp hget
    have hperm : (raw.handles ++ ((session.reflected.eraseIdx index).flatMap
        (fun value => value.2.handles) ++ session.finished.flatMap
          fun value => value.2.handles)).Perm session.handles := by
      rw [← List.append_assoc]
      have herase := List.getElem_cons_eraseIdx_perm hindex
      rw [hvalue] at herase
      exact (herase.flatMap_right fun value => value.2.handles).append_right _
    obtain ⟨hsize, hkept, hshows⟩ := cx.finish_spec hlimit raw h.accounts.ready fun hfresh => by
      have hnil := h.accounts.eq_nil hlimit hfresh
      rw [hnil] at hperm
      exact (List.append_eq_nil_iff.mp hperm.eq_nil).1
    dsimp only
    rw [cx.finish?_eq]
    refine ⟨_, rfl, h.active, ?_, ?_, ?_⟩
    · refine h.accounts.step hlimit hkept hperm ?_
      exact List.perm_append_comm_assoc ..
    · intro value hmem
      exact (h.shows value (List.mem_of_mem_eraseIdx hmem)).mono hkept.mono
    · intro value hmem
      obtain rfl | hmem := List.mem_cons.mp hmem
      · exact ⟨hsize, hshows⟩
      · obtain ⟨hsize, hshows⟩ := h.visible value hmem
        exact ⟨hsize, hshows.mono hkept.mono⟩

theorem Sound.foldlM (hlimit : 0 < cx.maxNodes) : ∀ (calls : List Call) {session : Session},
    Sound cx session → ∃ session', calls.foldlM (Session.call cx) session = some session' ∧
      Sound cx session'
  | [], session, h => ⟨session, rfl, h⟩
  | call :: calls, session, h => by
      have hcall : ∃ session', session.call cx call = some session' ∧ Sound cx session' := by
        cases call with
        | reflect value => exact h.reflect hlimit value
        | finish index => exact h.finish hlimit index
      obtain ⟨session', hstep, hsound⟩ := hcall
      rw [List.foldlM_cons, hstep]
      exact Sound.foldlM hlimit calls hsound

/-- No subtraction of a budget underflows in any run of a context, and its results are within the
limit: what is visible, and its pages together.  Each result shows its value up to parts under
marks, each handle names a page of the context, and no two marks share one. -/
theorem run_within (maxDepth : Nat) {maxNodes : Nat} (hpos : 0 < maxNodes)
    (continuationPrefix : String) (resolver : ReferenceKey → Option SymbolReference)
    (calls : List Call) :
    ∃ session, run maxDepth maxNodes continuationPrefix resolver calls = some session ∧
      session.Within maxNodes := by
  have hstart : Sound (ReflectionContext.withContinuationPrefix maxDepth maxNodes
      continuationPrefix resolver).1 ⟨(ReflectionContext.withContinuationPrefix maxDepth maxNodes
        continuationPrefix resolver).2, [], []⟩ :=
    ⟨rfl, .fresh ⟨rfl, rfl, rfl⟩, fun _ h => absurd h List.not_mem_nil,
      fun _ h => absurd h List.not_mem_nil⟩
  obtain ⟨session, hrun, hsound⟩ := Sound.foldlM hpos calls hstart
  exact ⟨session, hrun, hsound.within⟩

/-- Three numbers, of which two nodes leave a mark. -/
theorem run_within_numbers : 0 < 2 ∧
    ∃ session, run 1 2 "product" (fun _ => none)
      [.reflect (.sequence "Vec" [.scalar "u8" (.number 1), .scalar "u8" (.number 2),
        .scalar "u8" (.number 3)]), .finish 0] = some session ∧ session.Within 2 :=
  ⟨Nat.zero_lt_two, run_within 1 Nat.zero_lt_two "product" (fun _ => none) _⟩

end Session

end Sage.Inspector
