import Sage.Resolve.Completeness

/-!
# Resolve — impl discovery is complete

What the walks over unexpanded items, expanded items and modules say.

* `Transparent`, `ModuleCertain` — everything an item, a module expands to is known.
* `bangMacroExpansionComplete_iff` — the walk into an invocation accepts what is transparent.
* `visit_complete_iff` — candidates are complete exactly where every module visited is certain.
* `mem_visit_iff` — the candidates are those of the modules visited.
-/

namespace Sage.Resolve

open Loop

namespace LocalCrate

variable (C : LocalCrate)

/-! ### What is known -/

def Resolves (module : LocalModSym) (use : MacroUse) (macroDef : Option MacroDefSymbol) : Prop :=
  (C.module module).Resolves (C.items module) use macroDef

@[grind =] def IsActive (module : LocalModSym) (item : UnexpandedItem) : Prop :=
  (C.module module).itemHasUnexpandedActiveAttribute item = true

/-- The one macro an invocation names, when it can be expanded. -/
def ExpandsBy (module : LocalModSym) (invocation : Nat) (macroDef : MacroDefSymbol) : Prop :=
  C.Resolves module (.bang ((C.module module).macroPath invocation)) (some macroDef) ∧
    (C.module module).macroDefIsActive macroDef = false

/-- Everything an item expands to is known, nested no deeper than given. -/
inductive Transparent (module : LocalModSym) : Nat → UnexpandedItem → Prop
  | item {n item} (ha : ¬ C.IsActive module (.item item)) : Transparent module n (.item item)
  | macroInvocation {n invocation macroDef}
      (ha : ¬ C.IsActive module (.macroInvocation invocation))
      (he : C.ExpandsBy module invocation macroDef)
      (ho : ∀ item ∈ (C.module module).parseOutput invocation macroDef,
        Transparent module n item) :
      Transparent module (n + 1) (.macroInvocation invocation)

/-- A derive whose impls are represented or known to be of another trait. -/
def DeriveKnown (module : LocalModSym) (targetTrait : Symbol) (item : LocalModItemSym)
    (name : Name) : Prop :=
  (∃ macroDef, C.Resolves module (.derive name) (some macroDef)) ∧
    ((C.module module).expandBuiltinDerive name item = true ∨
      ∃ derivedTrait, C.builtinDeriveTrait name = some derivedTrait ∧ derivedTrait ≠ targetTrait)

/-- The header of an impl says whether it is of a trait. -/
def HeaderKnown (targetTrait : Symbol) (impl : Nat) : Prop :=
  (C.traitSymbol impl = some targetTrait → C.sigTrait impl = some targetTrait) ∧
    (C.traitSymbol impl = none → C.hasTraitPath impl = false)

/-- An expanded item that is not replaced and whose derives are known. -/
def ItemKnown (module : LocalModSym) (targetTrait : Symbol) (item : LocalModItemSym) : Prop :=
  ¬ C.IsActive module (.item item) ∧ (item.mayHaveDerive = true →
    ∀ entry ∈ (C.module module).derives (.item item),
      C.DeriveKnown module targetTrait item entry.2.2)

/-- Nothing in a module can hide an impl of the trait from the walk. -/
structure ModuleCertain (targetTrait : Symbol) (module : LocalModSym) : Prop where
  transparent : ∀ item ∈ (C.module module).unexpandedItems,
    C.Transparent module maxExpansionDepth item
  known : ∀ item ∈ C.items module, C.ItemKnown module targetTrait item
  headers : ∀ impl, .other .impl impl ∈ C.items module → C.HeaderKnown targetTrait impl

def IsChild (module child : LocalModSym) : Prop :=
  .mod child ∈ C.items module ∧ ¬ C.IsActive module (.item (.mod child))

/-- The modules visited from one. -/
def Visited : LocalModSym → LocalModSym → Prop := Relation.ReflTransGen C.IsChild

/-- Some module visited can hide an impl of the trait. -/
def Uncertain (targetTrait : Symbol) : Prop :=
  ∃ module, C.Visited C.root module ∧ ¬ C.ModuleCertain targetTrait module

/-- The impls of a module that are candidates for a trait. -/
def IsCandidate (targetTrait : Symbol) (module : LocalModSym) (impl : Nat) : Prop :=
  .other .impl impl ∈ C.items module ∧ ¬ C.IsActive module (.item (.other .impl impl)) ∧
    C.traitSymbol impl = some targetTrait ∧ C.sigTrait impl = some targetTrait

/-! ### The walk over unexpanded items -/

variable {C} {fuel : Nat} {module : LocalModSym} {targetTrait : Symbol} {b : Bool}

theorem Resolves.eq {use : MacroUse} {r r' : Option MacroDefSymbol}
    (h : C.Resolves module use r) (h' : C.resolveMacro fuel module use = some r') : r = r' :=
  h.unique ⟨fuel, h'⟩

/-- The walk into an invocation accepts what is transparent. -/
theorem bangMacroExpansionComplete_iff (n : Nat) : ∀ invocation b,
    (C.module module).bangMacroExpansionComplete (C.resolveMacro fuel module) n invocation =
      some b → (b = true ↔ C.Transparent module n (.macroInvocation invocation)) := by
  induction n with
  | zero =>
      intro invocation b h
      obtain rfl := Option.some.inj h
      exact ⟨fun h => absurd h Bool.false_ne_true, fun h => by cases h⟩
  | succ n ih =>
      intro invocation b h
      rw [LocalModule.bangMacroExpansionComplete] at h
      split at h
      · rename_i hactive
        obtain rfl := Option.some.inj h
        refine ⟨fun h => absurd h Bool.false_ne_true, fun h => ?_⟩
        cases h with | macroInvocation ha => exact absurd hactive ha
      rename_i hactive
      split at h
      · cases h
      · rename_i hnone
        obtain rfl := Option.some.inj h
        refine ⟨fun h => absurd h Bool.false_ne_true, fun h => ?_⟩
        cases h with | macroInvocation _ he => cases he.1.eq hnone
      rename_i macroDef hsome
      split at h
      · rename_i hdef
        obtain rfl := Option.some.inj h
        refine ⟨fun h => absurd h Bool.false_ne_true, fun h => ?_⟩
        cases h with
        | macroInvocation _ he =>
            obtain rfl := Option.some.inj (he.1.eq hsome)
            exact absurd hdef (Bool.eq_false_iff.mp he.2)
      rename_i hdef
      have hexp : C.ExpandsBy module invocation macroDef := ⟨⟨fuel, hsome⟩, Bool.eq_false_iff.mpr hdef⟩
      rw [allM_iff (P := C.Transparent module n) ?_ h]
      · refine ⟨fun ho => .macroInvocation hactive hexp ho, fun h => ?_⟩
        cases h with
        | macroInvocation _ he ho =>
            obtain rfl := Option.some.inj (he.1.eq hsome)
            exact ho
      · intro item _ b hb
        split at hb
        · rename_i hitem
          obtain rfl := Option.some.inj hb
          refine ⟨fun h => absurd h Bool.false_ne_true, fun h => ?_⟩
          cases h with
          | item ha => exact absurd hitem ha
          | macroInvocation ha => exact absurd hitem ha
        rename_i hitem
        cases item with
        | macroInvocation nested => exact ih nested b hb
        | error =>
            obtain rfl := Option.some.inj hb
            exact ⟨fun h => absurd h Bool.false_ne_true, fun h => by cases h⟩
        | item item =>
            obtain rfl := Option.some.inj hb
            exact ⟨fun _ => .item hitem, fun _ => rfl⟩

theorem unexpandedItemComplete_iff {item : UnexpandedItem}
    (h : (C.module module).unexpandedItemComplete (C.resolveMacro fuel module) item = some b) :
    b = true ↔ C.Transparent module maxExpansionDepth item := by
  simp only [LocalModule.unexpandedItemComplete] at h
  split at h
  · rename_i hitem
    obtain rfl := Option.some.inj h
    refine ⟨fun h => absurd h Bool.false_ne_true, fun h => ?_⟩
    cases h with
    | item ha => exact absurd hitem ha
    | macroInvocation ha => exact absurd hitem ha
  rename_i hitem
  cases item with
  | macroInvocation invocation => exact bangMacroExpansionComplete_iff _ invocation b h
  | error =>
      obtain rfl := Option.some.inj h
      exact ⟨fun h => absurd h Bool.false_ne_true, fun h => by cases h⟩
  | item item =>
      obtain rfl := Option.some.inj h
      exact ⟨fun _ => .item hitem, fun _ => rfl⟩

/-! ### The walk over expanded items -/

theorem deriveCompleteForTrait_iff {item : LocalModItemSym} {name : Name}
    (h : C.deriveCompleteForTrait fuel module item name targetTrait = some b) :
    b = true ↔ C.DeriveKnown module targetTrait item name := by
  obtain ⟨r, hr, h⟩ := Option.bind_eq_some_iff.mp h
  cases r with
  | none =>
      obtain rfl := Option.some.inj h
      refine ⟨fun h => absurd h Bool.false_ne_true, fun h => ?_⟩
      obtain ⟨⟨macroDef, hd⟩, -⟩ := h
      cases hd.eq hr
  | some macroDef =>
      have hd : ∃ macroDef, C.Resolves module (.derive name) (some macroDef) :=
        ⟨macroDef, fuel, hr⟩
      dsimp only at h
      rw [DeriveKnown, and_iff_right hd]
      split at h
      · rename_i hexp
        obtain rfl := Option.some.inj h
        simp [hexp]
      · rename_i hexp
        cases ht : C.builtinDeriveTrait name with
        | none =>
            rw [ht] at h
            obtain rfl := Option.some.inj h
            simp [hexp]
        | some derivedTrait =>
            rw [ht] at h
            obtain rfl := Option.some.inj h
            simp [hexp]

theorem expandedItemComplete_iff {item : LocalModItemSym}
    (h : C.expandedItemComplete fuel module targetTrait item = some b) :
    b = true ↔ C.ItemKnown module targetTrait item := by
  rw [expandedItemComplete] at h
  rw [ItemKnown]
  split at h
  · rename_i hactive
    obtain rfl := Option.some.inj h
    exact ⟨fun h => absurd h Bool.false_ne_true, fun h => absurd hactive h.1⟩
  rename_i hactive
  rw [and_iff_right (show ¬ C.IsActive module (.item item) from hactive)]
  split at h
  · rename_i hderive
    obtain rfl := Option.some.inj h
    simp [(Bool.not_eq_true' _).mp hderive]
  · rename_i hderive
    rw [allM_iff (fun entry _ b hb => deriveCompleteForTrait_iff hb) h]
    simp [show item.mayHaveDerive = true by simpa using hderive]

theorem moduleExpansionCompleteForTrait_iff
    (h : C.moduleExpansionCompleteForTrait fuel module targetTrait = some b) :
    b = true ↔ (∀ item ∈ (C.module module).unexpandedItems,
        C.Transparent module maxExpansionDepth item) ∧
      ∀ item ∈ C.items module, C.ItemKnown module targetTrait item := by
  obtain ⟨first, hfirst, h⟩ := Option.bind_eq_some_iff.mp h
  have htransparent := allM_iff (fun item _ b hb => unexpandedItemComplete_iff hb) hfirst
  rw [← htransparent]
  cases first with
  | false =>
      obtain rfl := Option.some.inj h
      simp
  | true =>
      rw [allM_iff (fun item _ b hb => expandedItemComplete_iff hb) h]
      simp

/-! ### The walk over modules -/

variable {impl : Nat} {found answer : LocalImplCandidates}

theorem visitImpl_complete_iff :
    (C.visitImpl module targetTrait impl found).complete = true ↔ found.complete = true ∧
      ¬ C.IsActive module (.item (.other .impl impl)) ∧ C.HeaderKnown targetTrait impl := by
  rw [visitImpl, IsActive, HeaderKnown]
  split
  · simp [*]
  · cases ht : C.traitSymbol impl with
    | none => cases hp : C.hasTraitPath impl <;> simp [*]
    | some traitSymbol =>
        by_cases h : traitSymbol = targetTrait
        · by_cases hs : C.sigTrait impl = some targetTrait <;> simp [*]
        · simp [*]

theorem mem_visitImpl_iff {other : Nat} :
    other ∈ (C.visitImpl module targetTrait impl found).impls ↔ other ∈ found.impls ∨
      other = impl ∧ ¬ C.IsActive module (.item (.other .impl impl)) ∧
        C.traitSymbol impl = some targetTrait ∧ C.sigTrait impl = some targetTrait := by
  rw [visitImpl, IsActive]
  split
  · simp [*]
  · cases ht : C.traitSymbol impl with
    | none => cases hp : C.hasTraitPath impl <;> simp [*]
    | some traitSymbol =>
        by_cases h : traitSymbol = targetTrait
        · by_cases hs : C.sigTrait impl = some targetTrait <;> simp [*]
        · simp [*]

/-- What the visit of an item asks of it. -/
def ItemCertain (C : LocalCrate) (targetTrait : Symbol) (module : LocalModSym) :
    LocalModItemSym → Prop
  | .other .impl impl =>
      ¬ C.IsActive module (.item (.other .impl impl)) ∧ C.HeaderKnown targetTrait impl
  | .mod child => ¬ C.IsActive module (.item (.mod child)) ∧
      ∀ m, C.Visited child m → C.ModuleCertain targetTrait m
  | _ => True

/-- What the visit of an item finds. -/
def ItemYields (C : LocalCrate) (targetTrait : Symbol) (module : LocalModSym) (impl : Nat) :
    LocalModItemSym → Prop
  | .other .impl own => impl = own ∧ ¬ C.IsActive module (.item (.other .impl own)) ∧
      C.traitSymbol own = some targetTrait ∧ C.sigTrait own = some targetTrait
  | .mod child => ¬ C.IsActive module (.item (.mod child)) ∧
      ∃ m, C.Visited child m ∧ C.IsCandidate targetTrait m impl
  | _ => False

/-- Every module visited is certain, when the items visited are. -/
theorem certain_iff : (∀ m, C.Visited module m → C.ModuleCertain targetTrait m) ↔
    ((∀ item ∈ (C.module module).unexpandedItems, C.Transparent module maxExpansionDepth item) ∧
      ∀ item ∈ C.items module, C.ItemKnown module targetTrait item) ∧
    ∀ item ∈ C.items module, C.ItemCertain targetTrait module item := by
  constructor
  · intro h
    have hm := h module .refl
    refine ⟨⟨hm.transparent, hm.known⟩, fun item hitem => ?_⟩
    have hactive := (hm.known item hitem).1
    cases item with
    | mod child => exact ⟨hactive, fun m hv => h m (.head ⟨hitem, hactive⟩ hv)⟩
    | use id => trivial
    | other kind id =>
        cases kind with
        | impl => exact ⟨hactive, hm.headers id hitem⟩
        | _ => trivial
  · rintro ⟨⟨ht, hk⟩, hi⟩ m hv
    rcases hv.cases_head with rfl | ⟨child, hchild, hv⟩
    · exact ⟨ht, hk, fun impl himpl => (hi _ himpl).2⟩
    · exact (hi _ hchild.1).2 m hv

/-- An impl of the modules visited is one of the module itself or of a child. -/
theorem candidate_iff : (∃ m, C.Visited module m ∧ C.IsCandidate targetTrait m impl) ↔
    ∃ item ∈ C.items module, C.ItemYields targetTrait module impl item := by
  constructor
  · rintro ⟨m, hv, hc⟩
    rcases hv.cases_head with rfl | ⟨child, hchild, hv⟩
    · exact ⟨_, hc.1, rfl, hc.2⟩
    · exact ⟨_, hchild.1, hchild.2, m, hv, hc⟩
  · rintro ⟨item, hitem, hy⟩
    cases item with
    | mod child =>
        obtain ⟨hactive, m, hv, hc⟩ := hy
        exact ⟨m, .head ⟨hitem, hactive⟩ hv, hc⟩
    | use id => exact hy.elim
    | other kind id =>
        cases kind with
        | impl =>
            obtain ⟨rfl, hc⟩ := hy
            exact ⟨module, .refl, hitem, hc⟩
        | _ => exact hy.elim

/-- Candidates are complete exactly where every module visited is certain. -/
theorem visit_complete_iff (depth : Nat) : ∀ module found answer,
    C.visit fuel targetTrait depth module found = some answer →
    (answer.complete = true ↔
      found.complete = true ∧ ∀ m, C.Visited module m → C.ModuleCertain targetTrait m) := by
  induction depth with
  | zero => exact fun _ _ _ h => by cases h
  | succ depth ih =>
      intro module found answer h
      obtain ⟨complete, hcomplete, h⟩ := Option.bind_eq_some_iff.mp h
      rw [foldlM_iff (I := fun found => found.complete = true)
        (P := C.ItemCertain targetTrait module) ?_ h, certain_iff,
        ← moduleExpansionCompleteForTrait_iff hcomplete, Bool.and_eq_true, and_assoc]
      intro item _ s s' hs
      cases item with
      | use id =>
          obtain rfl := Option.some.inj hs
          simp [ItemCertain]
      | mod child =>
          simp only at hs
          split at hs
          · rename_i hactive
            obtain rfl := Option.some.inj hs
            simp [ItemCertain, IsActive, hactive]
          · rename_i hactive
            rw [ih child s s' hs, ItemCertain, IsActive, and_iff_right hactive]
      | other kind id =>
          cases kind with
          | impl =>
              obtain rfl := Option.some.inj hs
              exact visitImpl_complete_iff
          | _ =>
              obtain rfl := Option.some.inj hs
              simp [ItemCertain]

theorem mem_visit_iff (depth : Nat) : ∀ module found answer,
    C.visit fuel targetTrait depth module found = some answer →
    (impl ∈ answer.impls ↔ impl ∈ found.impls ∨
      ∃ m, C.Visited module m ∧ C.IsCandidate targetTrait m impl) := by
  induction depth with
  | zero => exact fun _ _ _ h => by cases h
  | succ depth ih =>
      intro module found answer h
      obtain ⟨complete, -, h⟩ := Option.bind_eq_some_iff.mp h
      have hfold := foldlM_iff (I := fun found => impl ∉ found.impls)
        (P := fun item => ¬ C.ItemYields targetTrait module impl item) ?_ h
      · rw [candidate_iff, ← not_iff_not, hfold]
        simp only [not_or, not_exists, not_and]
      intro item _ s s' hs
      rw [← not_or, not_iff_not]
      cases item with
      | use id =>
          obtain rfl := Option.some.inj hs
          simp [ItemYields]
      | mod child =>
          simp only at hs
          split at hs
          · rename_i hactive
            obtain rfl := Option.some.inj hs
            simp [ItemYields, IsActive, hactive]
          · rename_i hactive
            rw [ih child s s' hs, ItemYields, IsActive, and_iff_right hactive]
      | other kind id =>
          cases kind with
          | impl =>
              obtain rfl := Option.some.inj hs
              exact mem_visitImpl_iff
          | _ =>
              obtain rfl := Option.some.inj hs
              simp [ItemYields]

end LocalCrate

end Sage.Resolve
