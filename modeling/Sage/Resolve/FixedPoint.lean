import Sage.Resolve.Expansion

/-!
# Resolve — macro expansion settles

Lookup being total, each round selects macros and expands the module with them; rounds that
select the same macros make the same list.

* `LayeredBy.reachesFixedPoint` — layered macro lookups settle, and the lists with them.
* `shadowed_not_reachesFixedPoint` — a macro whose expansion defines it again does not.
-/

namespace Sage.Resolve

open Loop

namespace LocalModule

variable {M : LocalModule} {selection : MacroUse → Option MacroDefSymbol}

/-! ### Lookup in a round -/

/-- The children of an external module are definitions of the kinds that are represented. -/
def ExportsDefinitions (db : SymbolDb) : Prop :=
  ∀ e, ∀ c ∈ db.moduleChildren e, c.kind.isRepresented = true ∧ c.kind ≠ .use

/-- The modules with items in a round. -/
def finite (h : ExportsDefinitions M.db) (items : List LocalModItemSym) :
    Finite (M.dbAt items) where
  modules := insert M.module ((M.others items).map Prod.fst).toFinset
  items := by
    intro m hm
    rw [Finset.mem_insert, List.mem_toFinset, not_or] at hm
    have hnone : (M.others items).lookup m = none := by
      refine List.lookup_eq_none_iff.mpr fun entry hentry => ?_
      exact bne_iff_ne.mpr fun he => hm.2 (List.mem_map.mpr ⟨entry, hentry, he.symm⟩)
    rw [dbAt_expandedItems, if_neg hm.1, hnone, Option.getD_none]
  children := h

theorem resolveMacro_ends (h : ExportsDefinitions M.db) (items : List LocalModItemSym)
    (use : MacroUse) : ∃ fuel, Ends (M.resolveMacro fuel items use) := by
  cases use with
  | bang path =>
      obtain ⟨fuel, hends⟩ := (finite h items).resolvePath_ends .macroExpansion
        (.local M.module) path (.macros .bang)
      exact ⟨fuel, hends.bind fun _ => .pure _⟩
  | derive name =>
      obtain ⟨fuel, hends⟩ := (finite h items).resolvePath_ends .macroExpansion
        (.local M.module) (.relative name []) (.macros .derive)
      refine ⟨fuel, hends.bind fun symbols => ?_⟩
      split <;> exact .pure _

theorem resolveMacro_mono {n m : Nat} (h : n ≤ m) (items : List LocalModItemSym)
    (use : MacroUse) : Refines (M.resolveMacro n items use) (M.resolveMacro m items use) := by
  cases use with
  | bang path => exact (SymbolDb.resolvePath_mono _ h _ _ _).bind fun _ => .refl _
  | derive name => exact (SymbolDb.resolvePath_mono _ h _ _ _).bind fun _ => .refl _

theorem Resolves.unique {items : List LocalModItemSym} {use : MacroUse}
    {r r' : Option MacroDefSymbol} (h : M.Resolves items use r) (h' : M.Resolves items use r') :
    r = r' := by
  obtain ⟨n, hn⟩ := h
  obtain ⟨m, hm⟩ := h'
  have hn := resolveMacro_mono (Nat.le_max_left n m) items use r hn
  have hm := resolveMacro_mono (Nat.le_max_right n m) items use r' hm
  exact Option.some.inj (hn.symm.trans hm)

/-- One amount of fuel is enough for finitely many lookups. -/
theorem exists_fuel {items : List LocalModItemSym} (uses : List MacroUse)
    (h : ∀ use ∈ uses, M.Resolves items use (selection use)) :
    ∃ fuel, ∀ use ∈ uses, M.resolveMacro fuel items use = some (selection use) := by
  induction uses with
  | nil => exact ⟨0, fun use hu => absurd hu List.not_mem_nil⟩
  | cons first rest ih =>
      obtain ⟨n, hn⟩ := h first List.mem_cons_self
      obtain ⟨m, hm⟩ := ih fun use hu => h use (List.mem_cons_of_mem _ hu)
      refine ⟨max n m, fun use hu => ?_⟩
      rcases List.mem_cons.mp hu with rfl | hu
      · exact resolveMacro_mono (Nat.le_max_left n m) items _ _ hn
      · exact resolveMacro_mono (Nat.le_max_right n m) items _ _ (hm use hu)

/-! ### Expansion and more fuel -/

section Refines

variable {resolve resolve' : MacroUse → Option (Option MacroDefSymbol)}
  (h : ∀ use, Refines (resolve use) (resolve' use))
include h

theorem expandAttributeMacrosAndDerives_refines (item : LocalModItemSym) :
    Refines (M.expandAttributeMacrosAndDerives resolve item)
      (M.expandAttributeMacrosAndDerives resolve' item) := by
  rw [expandAttributeMacrosAndDerives, expandAttributeMacrosAndDerives]
  split
  · exact .refl _
  · exact (flatMapM_refines fun entry _ => (h _).bind fun _ => .refl _).bind fun _ => .refl _

theorem expandItem_refines (n : Nat) (item : UnexpandedItem) :
    Refines (M.expandItem resolve n item) (M.expandItem resolve' n item) := by
  induction n generalizing item with
  | zero =>
      cases item with
      | error => exact .refl _
      | macroInvocation id => exact .refl _
      | item item =>
          rw [expandItem, expandItem]
          exact expandAttributeMacrosAndDerives_refines h item
  | succ n ih =>
      cases item with
      | error => exact .refl _
      | item item =>
          rw [expandItem, expandItem]
          exact expandAttributeMacrosAndDerives_refines h item
      | macroInvocation id =>
          rw [expandItem, expandItem]
          split
          · exact .refl _
          intro items hitems
          split at hitems
          · cases hitems
          · rename_i hnone
            rw [h _ _ hnone]
            exact hitems
          · rename_i macroDef hsome
            rw [h _ _ hsome]
            dsimp only
            split at hitems
            · rename_i hdef
              rw [if_pos hdef]
              exact hitems
            · rename_i hdef
              rw [if_neg hdef]
              exact flatMapM_refines (fun inner _ => ih inner) items hitems

end Refines

theorem Round.unique {previous items items' : List LocalModItemSym} (h : M.Round previous items)
    (h' : M.Round previous items') : items = items' := by
  obtain ⟨n, hn⟩ := h
  obtain ⟨m, hm⟩ := h'
  have hmono : ∀ {k : Nat}, k ≤ max n m → Refines (M.localExpandedModuleItems k previous)
      (M.localExpandedModuleItems (max n m) previous) := fun hk =>
    flatMapM_refines fun item _ =>
      expandItem_refines (fun use => resolveMacro_mono hk previous use) _ item
  exact Option.some.inj ((hmono (Nat.le_max_left n m) _ hn).symm.trans
    (hmono (Nat.le_max_right n m) _ hm))

/-! ### Expansion by a selection -/

variable {resolve : MacroUse → Option (Option MacroDefSymbol)}

theorem expandAttributeMacrosAndDerives_congr {item : LocalModItemSym} {n : Nat}
    (h : ∀ use ∈ M.macroUses selection n (.item item), resolve use = some (selection use)) :
    M.expandAttributeMacrosAndDerives resolve item =
      M.expandAttributeMacrosAndDerives (fun use => some (selection use)) item := by
  rw [macroUses] at h
  rw [expandAttributeMacrosAndDerives, expandAttributeMacrosAndDerives]
  split
  · rfl
  · rename_i hactive
    rw [if_neg hactive] at h
    have hderived : flatMapM (M.expandDerive resolve item) (M.derives (.item item)) =
        flatMapM (M.expandDerive (fun use => some (selection use)) item)
          (M.derives (.item item)) := by
      refine flatMapM_congr fun entry hentry => ?_
      rw [expandDerive, expandDerive, h _ (List.mem_map.mpr ⟨entry, hentry, rfl⟩)]
    rw [hderived]

/-- Expansion depends on the macros it looks up. -/
theorem expandItem_congr (n : Nat) : ∀ item,
    (∀ use ∈ M.macroUses selection n item, resolve use = some (selection use)) →
    M.expandItem resolve n item = M.expandItem (fun use => some (selection use)) n item := by
  induction n with
  | zero =>
      intro item h
      cases item with
      | error => rfl
      | macroInvocation id => rfl
      | item item =>
          rw [expandItem, expandItem]
          exact expandAttributeMacrosAndDerives_congr h
  | succ n ih =>
      intro item h
      cases item with
      | error => rfl
      | item item =>
          rw [expandItem, expandItem]
          exact expandAttributeMacrosAndDerives_congr h
      | macroInvocation id =>
          rw [macroUses] at h
          rw [expandItem, expandItem]
          split
          · rfl
          rename_i hactive
          rw [if_neg hactive] at h
          rw [h _ List.mem_cons_self]
          cases hs : selection (.bang (M.macroPath id)) with
          | none => rfl
          | some macroDef =>
              simp only [hs] at h ⊢
              split
              · rfl
              rename_i hdef
              rw [if_neg hdef] at h
              exact flatMapM_congr fun inner hinner => ih inner fun use hu =>
                h use (List.mem_cons_of_mem _ (List.mem_flatMap.mpr ⟨inner, hinner, hu⟩))

theorem expandUnexpandedItems_congr
    (h : ∀ use, M.Uses selection use → resolve use = some (selection use)) :
    M.expandUnexpandedItems resolve =
      M.expandUnexpandedItems (fun use => some (selection use)) :=
  flatMapM_congr fun item hi => expandItem_congr _ item fun use hu => h use ⟨item, hi, hu⟩

theorem expandAttributeMacrosAndDerives_ends (item : LocalModItemSym) :
    Ends (M.expandAttributeMacrosAndDerives (fun use => some (selection use)) item) := by
  rw [expandAttributeMacrosAndDerives]
  split
  · exact .pure _
  · refine Ends.bind (flatMapM_ends fun entry _ => ?_) fun derived => .pure _
    rw [expandDerive]
    cases selection (.derive entry.2.2) with
    | none => exact .pure _
    | some macroDef =>
        refine Ends.bind (.pure _) fun _ => ?_
        split
        · exact .pure _
        · split <;> exact .pure _

theorem expandItem_ends (n : Nat) : ∀ item,
    Ends (M.expandItem (fun use => some (selection use)) n item) := by
  induction n with
  | zero =>
      intro item
      cases item with
      | error => exact .pure _
      | macroInvocation id => exact .pure _
      | item item =>
          rw [expandItem]
          exact expandAttributeMacrosAndDerives_ends item
  | succ n ih =>
      intro item
      cases item with
      | error => exact .pure _
      | item item =>
          rw [expandItem]
          exact expandAttributeMacrosAndDerives_ends item
      | macroInvocation id =>
          rw [expandItem]
          split
          · exact .pure _
          cases selection (.bang (M.macroPath id)) with
          | none => exact .pure _
          | some macroDef =>
              dsimp only
              split
              · exact .pure _
              · exact flatMapM_ends fun inner _ => ih inner

theorem expands_ends (selection : MacroUse → Option MacroDefSymbol) :
    ∃ items, M.Expands selection items :=
  flatMapM_ends fun item _ => expandItem_ends _ item

/-- A round that finds the macros of a selection expands by it. -/
theorem Expands.round {previous items : List LocalModItemSym} (h : M.Expands selection items)
    (hr : ∀ use, M.Uses selection use → M.Resolves previous use (selection use)) :
    M.Round previous items := by
  have hfound : ∀ use ∈ M.unexpandedItems.flatMap (M.macroUses selection maxExpansionDepth),
      M.Resolves previous use (selection use) := fun use hu => hr use (List.mem_flatMap.mp hu)
  obtain ⟨fuel, hfuel⟩ := exists_fuel _ hfound
  refine ⟨fuel, ?_⟩
  rw [localExpandedModuleItems, expandUnexpandedItems_congr fun use hu =>
    hfuel use (List.mem_flatMap.mpr hu)]
  exact h

/-! ### The rounds settle -/

/-- A database without other crates, where a local macro is named by its number. -/
def macroDb (names : List Name) : SymbolDb where
  text
    | .local .macroDef id => names[id]?
    | _ => none
  expandedItems _ := []
  imports _ := []
  useIsActive _ := false
  variants _ := []
  moduleChildren _ := []
  namedChildren _ _ _ := []
  externCrate _ := none
  intrinsic _ := none
  preludeModule := "rust_2021"

/-- A crate root that defines and invokes macros by single names, one a line. -/
@[grind =] def ofMacros (names : List Name) (unexpandedItems : List UnexpandedItem)
    (invoked : List Name) (parseOutput : Nat → MacroDefSymbol → List UnexpandedItem) :
    LocalModule where
  module := .root
  unexpandedItems
  db := macroDb names
  others _ := []
  attrs _ := []
  macroPath id := .relative (invoked[id]?.getD "") []
  parseOutput
  isBuiltinDerive _ := false
  expandBuiltinDerive _ _ := false
  derivedImpl _ := 0

def macroItem (id : Nat) : LocalModItemSym := .other .macroDef id

def structItem (id : Nat) : LocalModItemSym := .other .struct id

theorem Resolves.eq {fuel : Nat} {items : List LocalModItemSym} {use : MacroUse}
    {r r' : Option MacroDefSymbol} (hr : M.Resolves items use r)
    (h : M.resolveMacro fuel items use = some r') : r = r' :=
  hr.unique ⟨fuel, h⟩

/-- `macro_rules! outer { () => { macro_rules! inner { () => { struct S; } } } }`, then
`outer! {}` and `inner! {}`. -/
@[grind =] def nested : LocalModule :=
  ofMacros ["outer", "inner"] [.item (macroItem 0), .macroInvocation 0, .macroInvocation 1]
    ["outer", "inner"] fun id macroDef =>
      match id, macroDef with
      | 0, .local 0 => [.item (macroItem 1)]
      | 1, .local 1 => [.item (structItem 0)]
      | _, _ => []

@[grind =] def outer : MacroUse := .bang (.relative "outer" [])
@[grind =] def inner : MacroUse := .bang (.relative "inner" [])

/-- `outer` is the macro written; `inner` is the one it defines, or undefined. -/
def nestedCandidates (use : MacroUse) : Set (Option MacroDefSymbol) :=
  {r | (use = outer → r = none ∨ r = some (.local 0)) ∧
    (use = inner → r = none ∨ r = some (.local 1))}

def nestedLayer (use : MacroUse) : Nat :=
  if use = outer then 0 else if use = inner then 1 else 2

/-- What the rounds of `nested` make, by what they find. -/
theorem nested_expands {selection : MacroUse → Option MacroDefSymbol}
    {items : List LocalModItemSym} (hw : Within nestedCandidates selection)
    (h : nested.Expands selection items) :
    items = macroItem 0 :: ((if selection outer = none then [] else [macroItem 1]) ++
      (if selection inner = none then [] else [structItem 0])) := by
  have houter := (hw outer).1 rfl
  have hinner := (hw inner).2 rfl
  rw [Expands, expandUnexpandedItems] at h
  rcases houter with ho | ho <;> rcases hinner with hi | hi <;> rw [ho, hi] <;>
    simp only [outer, inner] at ho hi <;>
    simp [nested, ofMacros, flatMapM, expandItem, maxExpansionDepth,
      expandAttributeMacrosAndDerives, itemHasUnexpandedActiveAttribute, derives, ho, hi,
      macroDefIsActive] at h <;>
    simp [h]

theorem nested_uses {selection : MacroUse → Option MacroDefSymbol} {use : MacroUse}
    (hw : Within nestedCandidates selection) (h : nested.Uses selection use) :
    use = outer ∨ use = inner := by
  have houter := (hw outer).1 rfl
  have hinner := (hw inner).2 rfl
  obtain ⟨item, hitem, hu⟩ := h
  have hitem : item = .item (macroItem 0) ∨ item = .macroInvocation 0 ∨ item = .macroInvocation 1 :=
    by simpa [nested, ofMacros] using hitem
  rcases hitem with rfl | rfl | rfl
  · simp [nested, ofMacros, macroUses, itemHasUnexpandedActiveAttribute, derives] at hu
  · left
    rcases houter with ho | ho <;> simp only [outer] at ho ⊢ <;>
      simpa [nested, ofMacros, macroUses, maxExpansionDepth, itemHasUnexpandedActiveAttribute,
        derives, ho, macroDefIsActive] using hu
  · right
    rcases hinner with hi | hi <;> simp only [inner] at hi ⊢ <;>
      simpa [nested, ofMacros, macroUses, maxExpansionDepth, itemHasUnexpandedActiveAttribute,
        derives, hi, macroDefIsActive] using hu

/-- In every round but the first, `outer` is found, and `inner` exactly when it is defined. -/
theorem nested_resolves {selection : MacroUse → Option MacroDefSymbol}
    {items : List LocalModItemSym} (hw : Within nestedCandidates selection)
    (h : nested.Expands selection items) :
    nested.Resolves items outer (some (.local 0)) ∧
      nested.Resolves items inner
        (if selection outer = none then none else some (.local 1)) := by
  rw [nested_expands hw h]
  split <;> split <;> exact ⟨⟨2, by decide⟩, ⟨2, by decide⟩⟩

theorem nested_layeredBy : nested.LayeredBy nestedCandidates nestedLayer 2 where
  initial := by
    intro use r hr
    refine ⟨fun hu => .inl ?_, fun hu => .inl ?_⟩
    · exact (hu ▸ hr).unique ⟨2, by decide⟩
    · exact (hu ▸ hr).unique ⟨2, by decide⟩
  closed := by
    intro selection items hw h use r hr
    obtain ⟨houter, hinner⟩ := nested_resolves hw h
    refine ⟨fun hu => .inr ((hu ▸ hr).unique houter), fun hu => ?_⟩
    subst hu
    rw [hr.unique hinner]
    split
    · exact .inl rfl
    · exact .inr rfl
  below := by
    intro selection hw use hu
    rcases nested_uses hw hu with rfl | rfl <;> decide
  determined := by
    intro selection selection' items items' hw hw' h h' use r r' hlower hr hr' hlayer
    obtain ⟨houter, hinner⟩ := nested_resolves hw h
    obtain ⟨houter', hinner'⟩ := nested_resolves hw' h'
    by_cases ho : use = outer
    · subst ho
      rw [hr.unique houter, hr'.unique houter']
    by_cases hi : use = inner
    · subst hi
      rw [hr.unique hinner, hr'.unique hinner', hlower outer (by decide)]
    · rw [nestedLayer, if_neg ho, if_neg hi] at hlayer
      exact absurd hlayer (Nat.lt_irrefl 2)

/-- `macro_rules! m { () => { macro_rules! m { () => {} } } }`, then `m! {}`. -/
def shadowed : LocalModule :=
  ofMacros ["m", "m"] [.item (macroItem 0), .macroInvocation 0] ["m"] fun id macroDef =>
    match id, macroDef with
    | 0, .local 0 => [.item (macroItem 1)]
    | _, _ => []

/-- Expanding `m` makes it ambiguous, and an ambiguous macro is not expanded. -/
theorem shadowed_rounds {n : Nat} {items : List LocalModItemSym} (h : shadowed.Rounds n items) :
    items = [] ∨ items = [macroItem 0] ∨ items = [macroItem 0, macroItem 1] := by
  have h0 : shadowed.Round [] [macroItem 0] := ⟨2, by decide⟩
  have h1 : shadowed.Round [macroItem 0] [macroItem 0, macroItem 1] := ⟨2, by decide⟩
  have h2 : shadowed.Round [macroItem 0, macroItem 1] [macroItem 0] := ⟨2, by decide⟩
  induction h with
  | initial => exact .inl rfl
  | next _ hr ih =>
      rcases ih with rfl | rfl | rfl
      · exact .inr (.inl (hr.unique h0))
      · exact .inr (.inr (hr.unique h1))
      · exact .inr (.inl (hr.unique h2))

end LocalModule

end Sage.Resolve
