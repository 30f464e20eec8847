import Sage.Resolve.Finite

/-!
# Resolve — external children

What the metadata provider tells of an external module (`tcx_impl.rs`), what `symbol/mod.rs` makes
of it, and the lookups of a local crate that reach it.  `Symbol::data` converts a definition by its
kind and knows two kinds less than there are: a tuple struct's constructor and `other`.

* `Metadata` — the answers of rustc; `Metadata.moduleChildren` — those of the provider.
* `LocalSyntax.db` — a local crate over these.
* `traitsInMethodScope` — the search for method providers.
* `Handled`, `handled_iff` — the answers with which every lookup is safe.
-/

namespace Sage.Resolve

open Loop

/-! ### The provider -/

inductive CtorOf where
  | struct
  | variant
deriving DecidableEq

structure MacroKinds where
  bang : Bool
  attr : Bool
  derive : Bool

/-- rustc's kinds of definitions. -/
inductive DefKind where
  | mod
  | struct
  | union
  | enum
  | variant
  | trait
  | tyAlias
  | foreignTy
  | traitAlias
  | assocTy
  | tyParam
  | fn
  | const
  | constParam
  | static
  | ctor (ctorOf : CtorOf)
  | assocFn
  | assocConst
  | macros (kinds : MacroKinds)
  | externCrate
  | use
  | foreignMod
  | anonConst
  | inlineConst
  | opaqueTy
  | field
  | lifetimeParam
  | globalAsm
  | impl
  | closure
  | syntheticCoroutineBody

def symExtKindForDefKind : DefKind → SymExtKind
  | .fn | .assocFn => .fn
  | .struct => .struct
  | .ctor .struct => .tupleStructCtor
  | .enum => .enum
  | .variant => .variant
  | .ctor .variant => .variantCtor
  | .trait | .traitAlias => .trait
  | .impl => .impl
  | .mod => .mod
  | .tyAlias | .assocTy => .typeAlias
  | .const | .assocConst => .const
  | .static => .static
  | .macros _ => .macroDef
  | .use => .use
  | _ => .other

def namespacesForDefKind : DefKind → List Namespace
  | .mod | .enum | .trait | .traitAlias | .tyAlias | .foreignTy | .assocTy | .tyParam | .union =>
      [.type]
  | .fn | .assocFn | .const | .assocConst | .static | .constParam | .anonConst | .inlineConst =>
      [.value]
  | .struct => [.type, .value]
  | .variant => [.type, .value]
  | .ctor _ => [.value]
  | .macros kinds =>
      (if kinds.bang then [.macros .bang] else []) ++
        (if kinds.attr then [.macros .attr] else []) ++
        (if kinds.derive then [.macros .derive] else [])
  | _ => []

structure DefId where
  krate : Nat
  index : Nat
deriving DecidableEq

/-- A name in a module, and the definition it stands for, if any. -/
structure ModChild where
  name : Name
  res : Option DefId
  isPublic : Bool

/-- The metadata of the crates that can be named.  The children of an enum are its variants and
their constructors. -/
structure Metadata where
  children : DefId → List ModChild
  defKind : DefId → DefKind
  itemName : DefId → Option Name
  externCrate : Name → Option Nat
  enumChildren : ∀ id, defKind id = .enum → ∀ child ∈ children id, ∀ d, child.res = some d →
    defKind d = .variant ∨ defKind d = .ctor .variant

/-- A child of an external module, in one namespace. -/
structure RawChild where
  name : Name
  definition : SymExt
  ns : Namespace

def SymExt.defId (e : SymExt) : DefId := ⟨e.crateNum, e.defIndex⟩

namespace Metadata

variable (D : Metadata)

/-- A definition as an external symbol. -/
@[grind =] def symExt (d : DefId) : SymExt := ⟨d.krate, d.index, symExtKindForDefKind (D.defKind d)⟩

def moduleChildren (e : SymExt) : List RawChild :=
  (D.children e.defId).flatMap fun child =>
    match child.res with
    | none => []
    | some d =>
        if child.isPublic = false then []
        else (namespacesForDefKind (D.defKind d)).map fun ns => ⟨child.name, D.symExt d, ns⟩

def expandedModuleItems (e : SymExt) : List SymExt := (D.moduleChildren e).map (·.definition)

def namedChildren (e : SymExt) (name : Name) (ns : Namespace) : List SymExt :=
  ((D.moduleChildren e).filter fun child =>
    child.definition.kind ≠ .other ∧ child.name = name ∧ child.ns = ns).map (·.definition)

end Metadata

/-! ### A local crate -/

/-- What a local crate has, with its imports; finitely many of its modules have items. -/
structure LocalSyntax where
  text : Symbol → Option Name
  modules : Finset LocalModSym
  expandedItems : LocalModSym → List LocalModItemSym
  items : ∀ m ∉ modules, expandedItems m = []
  imports : Nat → List UseImport
  useIsActive : Nat → Bool
  /-- The variants of a local enum and their constructors. -/
  variants : Nat → List (LocalKind × Nat)
  intrinsic : Name → Option Nat
  preludeModule : Name
  /-- `module_expansion_complete_for_method_providers`. -/
  expansionComplete : LocalModSym → Bool

/-- What the lookups of the crate ask. -/
def LocalSyntax.db (crate : LocalSyntax) (D : Metadata) : SymbolDb where
  text
    | .ext e | .mod (.ext e) => D.itemName e.defId
    | symbol => crate.text symbol
  expandedItems := crate.expandedItems
  imports := crate.imports
  useIsActive := crate.useIsActive
  variants
    | .ext e => (D.expandedModuleItems e).map SymExt.symbol
    | .local .enum id => (crate.variants id).map fun entry => .local entry.1 entry.2
    | _ => []
  moduleChildren := D.expandedModuleItems
  namedChildren := D.namedChildren
  externCrate := D.externCrate
  intrinsic name := (crate.intrinsic name).map (.local .intrinsicType)
  preludeModule := crate.preludeModule

/-! ### Method providers -/

def Symbol.isTrait : Symbol → Bool
  | .local .trait _ => true
  | .ext definition => definition.kind = .trait
  | _ => false

/-- The traits found, each with whether it is in scope for sure; `searched` are the external
modules whose children were listed. -/
structure MethodScope where
  traits : List (Symbol × Bool)
  complete : Bool
  searched : List SymExt

namespace MethodScope

/-- A trait of the module itself, or one that was found already. -/
def pushDefinite (scope : MethodScope) (t : Symbol) : MethodScope :=
  if scope.traits.any fun entry => entry.1 = t then
    { scope with traits := scope.traits.map fun entry =>
        if entry.1 = t then (t, true) else entry }
  else { scope with traits := scope.traits ++ [(t, true)] }

def push (scope : MethodScope) (t : Symbol) : MethodScope :=
  if scope.traits.any fun entry => entry.1 = t then scope
  else { scope with traits := scope.traits ++ [(t, true)] }

def incompleteIf (scope : MethodScope) (p : Bool) : MethodScope :=
  if p then { scope with complete := false } else scope

end MethodScope

namespace SymbolDb

variable (db : SymbolDb) (recurse : ModSymbol → Name → Namespace → Option (List Symbol))

/-- `trait_children`: only the traits among the children. -/
def traitChildren (e : SymExt) : List Symbol :=
  ((db.moduleChildren e).filter fun child => child.kind = .trait).map SymExt.symbol

/-- The traits of an external module. -/
def searchExternal (scope : MethodScope) (e : SymExt) : MethodScope :=
  let scope := (db.traitChildren e).foldl MethodScope.push scope
  { scope with searched := scope.searched ++ [e] }

/-- A module that a glob imports: the exports of a local one are not all known. -/
def searchGlob (scope : MethodScope) : ModSymbol → MethodScope
  | .local _ => { scope with complete := false }
  | .ext e => db.searchExternal scope e

def searchImport (module : LocalModSym) (scope : MethodScope) (imported : UseImport) :
    Option MethodScope := do
  let resolved ← db.resolveUse recurse (.local module) imported.path .type
  match imported.kind with
  | .named _ | .unnamed =>
      let valueResolved ←
        if resolved = [] then db.resolveUse recurse (.local module) imported.path .value
        else some []
      let scope := scope.incompleteIf (resolved = [] ∧ valueResolved = [])
      return (resolved.filter Symbol.isTrait).foldl MethodScope.push scope
  | .glob =>
      let modules := resolved.filterMap Symbol.module
      return modules.foldl db.searchGlob (scope.incompleteIf (modules = []))

/-- The standard library's prelude. -/
def searchPrelude (scope : MethodScope) : Option MethodScope :=
  match (db.lookupExternPrelude "std" .type).bind Symbol.module with
  | none => some { scope with complete := false }
  | some stdModule => do
      let preludes ← recurse stdModule "prelude" .type
      let preludeModules := preludes.filterMap Symbol.module
      let editions ← flatMapM (fun module => recurse module db.preludeModule .type) preludeModules
      let editionModules := editions.filterMap Symbol.module
      let scope := scope.incompleteIf (preludeModules.length ≠ 1 ∨ editionModules.length ≠ 1)
      return editionModules.foldl (fun scope module =>
        match module with
        | .local m =>
            ((db.expandedModuleItems (.local m)).filter Symbol.isTrait).foldl MethodScope.push scope
        | .ext e => db.searchExternal scope e) scope

/-- The imports of a module, in order. -/
def moduleImports (module : LocalModSym) : List UseImport :=
  (db.expandedItems module).flatMap fun item =>
    match item with
    | .use id => db.imports id
    | _ => []

/-- `traits_in_method_scope`. -/
def traitsInMethodScope (phase : ResolvePhase) (fuel : Nat) (module : LocalModSym)
    (expansionComplete : Bool) : Option MethodScope := do
  let recurse := db.resolveNameFromModule phase fuel []
  let own := (db.expandedModuleItems (.local module)).filter Symbol.isTrait
  let scope := own.foldl MethodScope.pushDefinite ⟨[], expansionComplete, []⟩
  let scope ← (db.moduleImports module).foldlM (db.searchImport recurse module) scope
  db.searchPrelude recurse scope

/-- `resolve_module_path`: a module of the local crate by its names. -/
def resolveModulePath : LocalModSym → List Name → Option LocalModSym
  | module, [] => some module
  | module, segment :: segments =>
      match (db.expandedModuleItems (.local module)).find? fun item =>
        (item.name db).map Prod.fst = some segment with
      | some (.mod (.local child)) => resolveModulePath child segments
      | _ => none

/-- The symbols listed for a module of the local crate. -/
def listing (segments : List Name) : List Symbol :=
  match db.resolveModulePath .root segments with
  | some module => db.expandedModuleItems (.local module)
  | none => []

end SymbolDb

/-! ### Which external modules can be named -/

namespace Metadata

variable (D : Metadata)

/-- A module inside another, by the names on the way. -/
inductive Reaches : SymExt → List Name → SymExt → Prop where
  | refl (e : SymExt) : Reaches e [] e
  | step {e e' : SymExt} {child : RawChild} {path : List Name} (member : child ∈ D.moduleChildren e)
      (kind : child.definition.kind = .mod) (rest : Reaches child.definition path e') :
      Reaches e (child.name :: path) e'

def Nameable (e : SymExt) : Prop := ∃ name crateNum path,
  D.externCrate name = some crateNum ∧ D.Reaches (.root crateNum) path e

/-- What a lookup may find: modules that can be named, and definitions with represented kinds. -/
def Good : Symbol → Prop
  | .mod (.ext e) => D.Nameable e
  | .ext e => e.kind.isRepresented = true ∧ e.kind ≠ .use ∧
      e.kind = symExtKindForDefKind (D.defKind e.defId)
  | _ => True

/-- No module that can be named has a child of another kind. -/
def Represented : Prop :=
  ∀ e, D.Nameable e → ∀ child ∈ D.moduleChildren e, child.definition.kind.isRepresented = true

variable {D} {e : SymExt} {child : RawChild} {symbol : Symbol}

theorem Good.isRepresented (h : D.Good symbol) : symbol.isRepresented = true := by
  cases symbol with
  | mod module => rfl
  | use id => rfl
  | «local» kind id => rfl
  | ext e => exact h.1

theorem Reaches.snoc {e e' : SymExt} {path : List Name} (h : D.Reaches e path e')
    (member : child ∈ D.moduleChildren e') (kind : child.definition.kind = .mod) :
    D.Reaches e (path ++ [child.name]) child.definition := by
  induction h with
  | refl e => exact .step member kind (.refl _)
  | step member' kind' _ ih => exact .step member' kind' (ih member)

theorem Nameable.inner (h : D.Nameable e) (member : child ∈ D.moduleChildren e)
    (kind : child.definition.kind = .mod) : D.Nameable child.definition := by
  obtain ⟨name, crateNum, path, hcrate, hreaches⟩ := h
  exact ⟨name, crateNum, path ++ [child.name], hcrate, hreaches.snoc member kind⟩

/-- A child is a public name for some definition, in one of the namespaces of its kind. -/
theorem mem_moduleChildren : child ∈ D.moduleChildren e ↔ ∃ c ∈ D.children e.defId, ∃ d,
    c.res = some d ∧ c.isPublic = true ∧ ∃ ns ∈ namespacesForDefKind (D.defKind d),
      child = ⟨c.name, D.symExt d, ns⟩ := by
  rw [moduleChildren, List.mem_flatMap]
  refine exists_congr fun c => and_congr_right fun _ => ?_
  cases hres : c.res with
  | none => simp
  | some d =>
    dsimp only
    by_cases hpublic : c.isPublic = false
    · simp [hpublic]
    · rw [if_neg hpublic, List.mem_map]
      simp [Bool.eq_true_of_not_eq_false hpublic, eq_comm]

/-- A `use` item is in no namespace. -/
theorem kind_ne_use (hmem : child ∈ D.moduleChildren e) : child.definition.kind ≠ .use := by
  obtain ⟨c, -, d, -, -, ns, hns, rfl⟩ := mem_moduleChildren.mp hmem
  rw [symExt]
  intro huse
  cases hd : D.defKind d with
  | use =>
    rw [hd] at hns
    exact List.not_mem_nil hns
  | ctor ctorOf =>
    rw [hd] at huse
    cases ctorOf <;> cases huse
  | _ =>
    rw [hd] at huse
    cases huse

theorem symbol_good (hkind : child.definition.kind.isRepresented = true)
    (hname : child.definition.kind = .mod → D.Nameable child.definition)
    (hmem : child ∈ D.moduleChildren e) : D.Good child.definition.symbol := by
  have huse := kind_ne_use hmem
  obtain ⟨c, -, d, -, -, ns, -, rfl⟩ := mem_moduleChildren.mp hmem
  rw [SymExt.symbol]
  split
  · exact hname ‹_›
  · exact ⟨hkind, huse, rfl⟩

theorem Represented.good (h : D.Represented) (he : D.Nameable e)
    (hmem : child ∈ D.moduleChildren e) : D.Good child.definition.symbol :=
  symbol_good (h e he child hmem) (fun hkind => he.inner hmem hkind) hmem

/-- The children of an enum are represented. -/
theorem good_variant (he : D.Good (.ext e)) (henum : e.kind = .enum)
    (hmem : child ∈ D.moduleChildren e) : D.Good child.definition.symbol := by
  have hdef : D.defKind e.defId = .enum := by
    have hkind := he.2.2
    rw [henum] at hkind
    cases hd : D.defKind e.defId with
    | enum => rfl
    | ctor ctorOf =>
      rw [hd] at hkind
      cases ctorOf <;> cases hkind
    | _ =>
      rw [hd] at hkind
      cases hkind
  have hmem' := hmem
  obtain ⟨c, hc, d, hd, -, ns, -, rfl⟩ := mem_moduleChildren.mp hmem'
  have hkind := D.enumChildren e.defId hdef c hc d hd
  refine symbol_good ?_ (fun hmod => ?_) hmem
  · rcases hkind with hkind | hkind
    · rw [symExt, hkind]
      rfl
    · rw [symExt, hkind]
      rfl
  · rcases hkind with hkind | hkind
    · rw [symExt, hkind] at hmod
      cases hmod
    · rw [symExt, hkind] at hmod
      cases hmod

end Metadata

/-! ### Lookups over represented children -/

section Gives

variable {crate : LocalSyntax} {D : Metadata} (hD : D.Represented)

/-- The local modules of a crate, on their own. -/
def LocalSyntax.graph (crate : LocalSyntax) (D : Metadata) :
    Finite { crate.db D with moduleChildren := fun _ => [] } where
  modules := crate.modules
  items := crate.items
  children _ _ hc := absurd hc List.not_mem_nil

variable {recurse : ModSymbol → Name → Namespace → Option (List Symbol)} {asked : List Name}
  {module : ModSymbol} {symbol : Symbol} {name : Name} {ns : Namespace}

include hD in
theorem namedChildren_good {e : SymExt} (he : D.Nameable e) :
    ∀ symbol ∈ ((crate.db D).namedChildren e name ns).map SymExt.symbol, D.Good symbol := by
  intro symbol hsymbol
  obtain ⟨definition, hdefinition, rfl⟩ := List.mem_map.mp hsymbol
  obtain ⟨child, hchild, rfl⟩ := List.mem_map.mp hdefinition
  exact hD.good he (List.mem_of_mem_filter hchild)

include hD in
theorem expandedModuleItems_good (hm : D.Good (.mod module)) :
    ∀ symbol ∈ (crate.db D).expandedModuleItems module, D.Good symbol := by
  intro symbol hsymbol
  cases module with
  | «local» m =>
    obtain ⟨item, -, rfl⟩ := List.mem_map.mp hsymbol
    cases item <;> trivial
  | ext e =>
    obtain ⟨definition, hdefinition, rfl⟩ := List.mem_map.mp hsymbol
    obtain ⟨child, hchild, rfl⟩ := List.mem_map.mp hdefinition
    exact hD.good hm hchild

theorem children_good (hs : D.Good symbol) :
    ∀ child ∈ (crate.db D).children symbol, D.Good child := by
  intro child hchild
  rw [SymbolDb.children] at hchild
  split at hchild
  · rename_i henum
    cases symbol with
    | mod module => cases henum
    | use id => cases henum
    | ext e =>
      obtain ⟨definition, hdefinition, rfl⟩ := List.mem_map.mp hchild
      obtain ⟨raw, hraw, rfl⟩ := List.mem_map.mp hdefinition
      exact Metadata.good_variant hs (of_decide_eq_true henum) hraw
    | «local» kind id =>
      cases kind with
      | enum =>
        obtain ⟨entry, -, rfl⟩ := List.mem_map.mp hchild
        trivial
      | _ => cases henum
  · exact absurd hchild List.not_mem_nil

theorem externPrelude_good (h : (crate.db D).lookupExternPrelude name ns = some symbol) :
    D.Good symbol := by
  rw [SymbolDb.lookupExternPrelude] at h
  split at h
  · cases h
  · obtain ⟨crateNum, hcrate, rfl⟩ := Option.map_eq_some_iff.mp h
    exact ⟨name, crateNum, [], hcrate, .refl _⟩

theorem anchor_good (m : LocalModSym) : ∀ anchor : PathAnchorKind,
    ∀ module ∈ (crate.db D).resolveAnchor (.local m) anchor, D.Good (.mod module)
  | .self_, module, h => by
      obtain rfl := List.mem_singleton.mp h
      trivial
  | .currentCrate, module, h => by
      obtain rfl := List.mem_singleton.mp h
      trivial
  | .super inner, module, h => by
      obtain ⟨module', -, hparent⟩ := List.mem_filterMap.mp h
      cases module' with
      | «local» m' =>
        obtain ⟨parent, -, rfl⟩ := Option.map_eq_some_iff.mp hparent
        trivial
      | ext e => cases hparent
  | .externCrate name, module, h => by
      obtain ⟨symbol, hsymbol, hmodule⟩ := Option.bind_eq_some_iff.mp (Option.mem_toList.mp h)
      have hgood := externPrelude_good hsymbol
      cases symbol with
      | mod module' =>
        obtain rfl := Option.some.inj hmodule
        exact hgood
      | _ => cases hmodule

section Recurse

variable (h : ∀ module name ns, D.Good (.mod module) → name ∈ (crate.graph D).names asked →
    Gives D.Good (recurse module name ns))

include h hD

theorem resolveNameIn_gives (hs : D.Good symbol) (hn : name ∈ (crate.graph D).names asked) :
    Gives D.Good ((crate.db D).resolveNameIn recurse symbol name ns) := by
  rw [SymbolDb.resolveNameIn]
  cases symbol with
  | mod module =>
    cases module with
    | «local» m => exact h _ _ _ trivial hn
    | ext e => exact ⟨_, rfl, namedChildren_good hD hs⟩
  | _ => exact ⟨_, rfl, fun child hchild => children_good hs child (List.mem_of_mem_filter hchild)⟩

theorem resolveGlob_gives {globFrom : List Symbol} (hg : ∀ symbol ∈ globFrom, D.Good symbol)
    (hn : name ∈ (crate.graph D).names asked) :
    Gives D.Good ((crate.db D).resolveGlob recurse globFrom name ns) := by
  refine flatMapM_gives fun symbol hsymbol => ?_
  have hgood := hg symbol hsymbol
  cases hmodule : symbol.module with
  | some module =>
    cases symbol with
    | mod module' =>
      obtain rfl := Option.some.inj hmodule
      exact h _ _ _ hgood hn
    | _ => cases hmodule
  | none =>
    dsimp only
    split
    · exact resolveNameIn_gives hD h hgood hn
    · exact ⟨[], rfl, fun _ hmem => absurd hmem List.not_mem_nil⟩

omit h hD in
theorem modules_good {symbols : List Symbol} (hs : ∀ symbol ∈ symbols, D.Good symbol) :
    ∀ module ∈ symbols.filterMap Symbol.module, D.Good (.mod module) := by
  intro module hmodule
  obtain ⟨symbol, hsymbol, heq⟩ := List.mem_filterMap.mp hmodule
  have hgood := hs symbol hsymbol
  cases symbol with
  | mod module' =>
    obtain rfl := Option.some.inj heq
    exact hgood
  | _ => cases heq

theorem lookupStdPrelude_gives (hn : name ∈ (crate.graph D).names asked) :
    Gives D.Good ((crate.db D).lookupStdPrelude recurse name ns) := by
  rw [SymbolDb.lookupStdPrelude]
  split
  · exact ⟨[], rfl, fun _ hmem => absurd hmem List.not_mem_nil⟩
  · rename_i stdModule hstd
    obtain ⟨symbol, hsymbol, hmodule⟩ := Option.bind_eq_some_iff.mp hstd
    have hgood : D.Good (.mod stdModule) :=
      @modules_good D [symbol]
        (fun s hs => List.mem_singleton.mp hs ▸ externPrelude_good hsymbol) stdModule
        (List.mem_filterMap.mpr ⟨symbol, List.mem_singleton.mpr rfl, hmodule⟩)
    refine (h _ _ _ hgood Finite.prelude_mem_names).bind fun preludes hpreludes => ?_
    refine Gives.bind (flatMapM_gives fun module hmodule =>
      h _ _ _ (modules_good hpreludes module hmodule) Finite.preludeModule_mem_names)
        fun editions heditions => ?_
    exact resolveGlob_gives hD h heditions hn

theorem flexiblyResolve_gives (hm : D.Good (.mod module))
    (hn : name ∈ (crate.graph D).names asked) :
    Gives D.Good ((crate.db D).flexiblyResolve recurse module name ns) := by
  refine (h _ _ _ hm hn).bind fun results hresults => ?_
  split
  · exact ⟨results, rfl, hresults⟩
  split
  · rename_i symbol hsymbol
    exact ⟨[symbol], rfl, fun s hs => List.mem_singleton.mp hs ▸ externPrelude_good hsymbol⟩
  · refine (lookupStdPrelude_gives hD h hn).bind fun results hresults => ?_
    split
    · exact ⟨results, rfl, hresults⟩
    · refine ⟨_, rfl, fun symbol hsymbol => ?_⟩
      have hlang := Option.mem_toList.mp hsymbol
      rw [SymbolDb.lookupLangPrelude] at hlang
      split at hlang
      · cases hlang
      · obtain ⟨id, -, rfl⟩ := Option.map_eq_some_iff.mp hlang
        trivial

theorem resolveRemainingSegments_gives {rest : List Name}
    (hrest : ∀ n ∈ rest, n ∈ (crate.graph D).names asked) :
    ∀ symbols, (∀ symbol ∈ symbols, D.Good symbol) →
      Gives D.Good ((crate.db D).resolveRemainingSegments recurse ns rest symbols) := by
  induction rest with
  | nil => exact fun _ _ => ⟨[], rfl, fun _ hmem => absurd hmem List.not_mem_nil⟩
  | cons next rest ih =>
      intro symbols hsymbols
      have hnext := hrest next List.mem_cons_self
      cases rest with
      | nil =>
        exact flatMapM_gives fun symbol hsymbol =>
          resolveNameIn_gives hD h (hsymbols symbol hsymbol) hnext
      | cons second rest =>
        exact flatMapM_gives fun symbol hsymbol =>
          (resolveNameIn_gives hD h (hsymbols symbol hsymbol) hnext).bind
            (ih fun n hn => hrest n (List.mem_cons_of_mem _ hn))

theorem resolvePathInModule_gives {m : LocalModSym} {path : Path}
    (hp : ∀ n ∈ pathNames path, n ∈ (crate.graph D).names asked) :
    Gives D.Good ((crate.db D).resolvePathInModule recurse (.local m) path ns) := by
  have hanchor : ∀ anchor, ∀ symbol ∈ ((crate.db D).resolveAnchor (.local m) anchor).map .mod,
      D.Good symbol := by
    intro anchor symbol hsymbol
    obtain ⟨module, hmodule, rfl⟩ := List.mem_map.mp hsymbol
    exact anchor_good m anchor module hmodule
  have hm : D.Good (.mod (.local m)) := trivial
  simp only [SymbolDb.resolvePathInModule]
  split
  · exact flexiblyResolve_gives hD h hm (hp _ List.mem_cons_self)
  · exact (flexiblyResolve_gives hD h hm (hp _ List.mem_cons_self)).bind
      (resolveRemainingSegments_gives hD h fun n hn => hp n (List.mem_cons_of_mem _ hn))
  · split
    · exact ⟨[], rfl, fun _ hmem => absurd hmem List.not_mem_nil⟩
    · exact ⟨_, rfl, hanchor _⟩
  · exact resolveRemainingSegments_gives hD h hp _ (hanchor _)

theorem lookupImport_gives {filter : LookupFilter} {m : LocalModSym} {imported : UseImport}
    (hn : name ∈ (crate.graph D).names asked)
    (hi : ∀ n ∈ pathNames imported.path, n ∈ (crate.graph D).names asked) :
    Gives D.Good ((crate.db D).lookupImport recurse filter (.local m) name ns imported) := by
  have hnone : Gives D.Good (some []) := ⟨[], rfl, fun _ hmem => absurd hmem List.not_mem_nil⟩
  simp only [SymbolDb.lookupImport]
  split
  · split
    · exact resolvePathInModule_gives hD h hi
    · exact hnone
  · split
    · exact (resolvePathInModule_gives hD h hi).bind fun globFrom hglob =>
        resolveGlob_gives hD h hglob hn
    · exact hnone
  · exact hnone

end Recurse

/-- An item that is not an import. -/
theorem lookupItem_gives {filter : LookupFilter} (hs : D.Good symbol)
    (hu : ∀ id, symbol ≠ .use id) :
    Gives D.Good ((crate.db D).lookupItem recurse filter module name ns symbol) := by
  have huse : ∀ c i, symbol ≠ .ext ⟨c, i, .use⟩ := by
    rintro c i rfl
    exact hs.2.1 rfl
  rw [SymbolDb.lookupItem]
  · rw [if_neg (by rw [hs.isRepresented]; exact Bool.noConfusion)]
    split
    · exact ⟨_, rfl, fun s hmem => List.mem_singleton.mp hmem ▸ hs⟩
    · exact ⟨[], rfl, fun _ hmem => absurd hmem List.not_mem_nil⟩
  · exact hu
  · exact huse

include hD in
theorem lookupInModule_gives {filter : LookupFilter} (hm : D.Good (.mod module))
    (hn : name ∈ (crate.graph D).names asked)
    (h : ∀ m ∈ crate.modules, module = .local m → ∀ module name ns, D.Good (.mod module) →
      name ∈ (crate.graph D).names asked → Gives D.Good (recurse module name ns)) :
    Gives D.Good ((crate.db D).lookupInModule recurse filter module name ns) := by
  have hitems : Gives D.Good (flatMapM ((crate.db D).lookupItem recurse filter module name ns)
      ((crate.db D).expandedModuleItems module)) := by
    refine flatMapM_gives fun symbol hsymbol => ?_
    have hgood := expandedModuleItems_good hD hm symbol hsymbol
    by_cases huse : ∃ id, symbol = .use id
    · obtain ⟨id, rfl⟩ := huse
      cases module with
      | ext e =>
        obtain ⟨definition, -, heq⟩ := List.mem_map.mp hsymbol
        rw [SymExt.symbol] at heq
        split at heq <;> cases heq
      | «local» m =>
        obtain ⟨item, hitem, heq⟩ := List.mem_map.mp hsymbol
        cases item with
        | mod m' => cases heq
        | other kind id' => cases heq
        | use id' =>
          cases heq
          have hmem : m ∈ crate.modules := by
            by_contra hmem
            have hempty : (crate.db D).expandedItems m = [] := crate.items m hmem
            rw [hempty] at hitem
            exact List.not_mem_nil hitem
          rw [SymbolDb.lookupItem]
          split
          · exact ⟨[], rfl, fun _ hmem => absurd hmem List.not_mem_nil⟩
          · exact flatMapM_gives fun imported hi => lookupImport_gives hD (h m hmem rfl) hn
              fun n hn => Finite.mem_names_of_import (G := crate.graph D) hmem hitem hi hn
    · exact lookupItem_gives hgood fun id heq => huse ⟨id, heq⟩
  cases module with
  | «local» m => exact hitems
  | ext e =>
    cases ns with
    | macros kind =>
      simp only [SymbolDb.lookupInModule]
      split
      · exact ⟨_, rfl, namedChildren_good hD hm⟩
      · exact ⟨[], rfl, fun _ hmem => absurd hmem List.not_mem_nil⟩
    | type => exact hitems
    | value => exact hitems

include hD in
/-- Each query puts one more in flight, of finitely many. -/
theorem resolveNameFromModule_gives (phase : ResolvePhase) {n : Nat} :
    ∀ {inFlight : List InFlightQuery} {module name ns}, D.Good (.mod module) →
      name ∈ (crate.graph D).names asked →
      ((crate.graph D).queries asked \ inFlight.toFinset).card < n →
      Gives D.Good ((crate.db D).resolveNameFromModule phase n inFlight module name ns) := by
  induction n with
  | zero => exact fun _ _ h => absurd h (Nat.not_lt_zero _)
  | succ n ih =>
    intro inFlight module name ns hm hn hcard
    rw [SymbolDb.resolveNameFromModule]
    split
    · exact ⟨[], rfl, fun _ hmem => absurd hmem List.not_mem_nil⟩
    rename_i hmem
    have hmodule : ∀ filter, Gives D.Good ((crate.db D).lookupInModule
        ((crate.db D).resolveNameFromModule phase n (⟨module, name, ns⟩ :: inFlight)) filter
        module name ns) := by
      intro filter
      refine lookupInModule_gives hD hm hn fun m hlocal heq module' name' ns' hm' hn' => ?_
      subst heq
      refine ih hm' hn' ?_
      have hq : (⟨.local m, name, ns⟩ : InFlightQuery) ∈ (crate.graph D).queries asked := by
        refine Finset.mem_image.mpr ⟨(m, name, ns), ?_, rfl⟩
        exact Finset.mk_mem_product hlocal (Finset.mk_mem_product hn ns.mem_all)
      refine Nat.lt_of_lt_of_le (Finset.card_lt_card ?_) (Nat.le_of_lt_succ hcard)
      rw [List.toFinset_cons]
      refine Finset.ssubset_iff_of_subset ?_ |>.mpr ⟨⟨.local m, name, ns⟩, ?_, ?_⟩
      · exact Finset.sdiff_subset_sdiff (Finset.Subset.refl _) (Finset.subset_insert _ _)
      · exact Finset.mem_sdiff.mpr ⟨hq, fun h => hmem (List.mem_toFinset.mp h)⟩
      · exact fun h => (Finset.mem_sdiff.mp h).2 (Finset.mem_insert_self _ _)
    suffices hgives : Gives D.Good ((crate.db D).lookupByPhase ((crate.db D).resolveNameFromModule
        phase n (⟨module, name, ns⟩ :: inFlight)) phase module name ns) by
      obtain ⟨found, hfound, hgood⟩ := hgives
      refine ⟨found.eraseDups, by rw [hfound]; rfl, fun symbol hsymbol => ?_⟩
      exact hgood symbol (List.mem_eraseDups.mp hsymbol)
    cases phase with
    | macroExpansion => exact hmodule _
    | normal =>
      refine (hmodule _).bind fun results hresults => ?_
      split
      · exact ⟨results, rfl, hresults⟩
      · exact hmodule _

include hD in
/-- Whatever a lookup finds on the way is good, with any fuel and any queries in flight. -/
theorem resolveNameFromModule_good {phase : ResolvePhase} {fuel : Nat}
    {inFlight : List InFlightQuery} {results : List Symbol} (hm : D.Good (.mod module))
    (h : (crate.db D).resolveNameFromModule phase fuel inFlight module name ns = some results) :
    ∀ symbol ∈ results, D.Good symbol := by
  have hn : name ∈ (crate.graph D).names [name] := Finite.mem_names_of_asked List.mem_cons_self
  have hgives : Gives D.Good ((crate.db D).resolveNameFromModule phase
      (((crate.graph D).queries [name] \ inFlight.toFinset).card.succ) inFlight module name ns) :=
    resolveNameFromModule_gives hD phase hm hn (Nat.lt_succ_self _)
  obtain ⟨found, hfound, hgood⟩ := hgives
  generalize ((crate.graph D).queries [name] \ inFlight.toFinset).card.succ = enough at hfound
  have hresults := SymbolDb.resolveNameFromModule_mono phase (Nat.le_max_left fuel enough) inFlight
    module name ns results h
  have hfound := SymbolDb.resolveNameFromModule_mono phase (Nat.le_max_right fuel enough) inFlight
    module name ns found hfound
  obtain rfl := Option.some.inj (hresults.symm.trans hfound)
  exact hgood

include hD in
theorem resolvePath_gives (phase : ResolvePhase) (m : LocalModSym) (path : Path) (ns : Namespace) :
    ∃ fuel, Gives D.Good ((crate.db D).resolvePath phase fuel (.local m) path ns) := by
  have hends : ∀ module name ns, D.Good (.mod module) →
      name ∈ (crate.graph D).names (pathNames path) →
      Gives D.Good ((crate.db D).resolveNameFromModule phase
        (((crate.graph D).queries (pathNames path)).card + 1) [] module name ns) :=
    fun module name ns hm hn => resolveNameFromModule_gives hD phase hm hn
      (Nat.lt_succ_of_le (Finset.card_le_card Finset.sdiff_subset))
  exact ⟨_, resolvePathInModule_gives hD hends fun n hn => Finite.mem_names_of_asked hn⟩

/-! ### The search for method providers -/

/-- Every external module searched can be named. -/
def MethodScope.Named (D : Metadata) (scope : MethodScope) : Prop :=
  ∀ e ∈ scope.searched, D.Nameable e

theorem MethodScope.searched_foldl_push (traits : List Symbol) (scope : MethodScope) :
    (traits.foldl push scope).searched = scope.searched := by
  induction traits generalizing scope with
  | nil => rfl
  | cons t traits ih =>
    refine (ih (scope.push t)).trans ?_
    rw [push]
    split <;> rfl

theorem MethodScope.searched_foldl_pushDefinite (traits : List Symbol) (scope : MethodScope) :
    (traits.foldl pushDefinite scope).searched = scope.searched := by
  induction traits generalizing scope with
  | nil => rfl
  | cons t traits ih =>
    refine (ih (scope.pushDefinite t)).trans ?_
    rw [pushDefinite]
    split <;> rfl

theorem MethodScope.searched_incompleteIf (scope : MethodScope) (p : Bool) :
    (scope.incompleteIf p).searched = scope.searched := by
  rw [incompleteIf]
  split <;> rfl

theorem searchExternal_named {db : SymbolDb} {scope : MethodScope} {e : SymExt}
    (h : scope.Named D) (he : D.Nameable e) : (db.searchExternal scope e).Named D := by
  intro e' he'
  rw [SymbolDb.searchExternal, MethodScope.searched_foldl_push, List.mem_append,
    List.mem_singleton] at he'
  rcases he' with he' | rfl
  · exact h e' he'
  · exact he

/-- A search that goes through modules one by one. -/
theorem foldl_named {search : MethodScope → ModSymbol → MethodScope}
    (hsearch : ∀ scope module, scope.Named D → D.Good (.mod module) →
      (search scope module).Named D) :
    ∀ {modules : List ModSymbol} {scope : MethodScope}, scope.Named D →
      (∀ module ∈ modules, D.Good (.mod module)) → (modules.foldl search scope).Named D := by
  intro modules
  induction modules with
  | nil => exact fun h _ => h
  | cons module modules ih =>
    intro scope h hm
    exact ih (hsearch scope module h (hm module List.mem_cons_self))
      fun module' hmem => hm module' (List.mem_cons_of_mem _ hmem)

section Providers

variable (h : ∀ module name ns, D.Good (.mod module) → name ∈ (crate.graph D).names asked →
    Gives D.Good (recurse module name ns))

include h hD

theorem searchImport_ends {m : LocalModSym} {scope : MethodScope} {imported : UseImport}
    (hscope : scope.Named D) (hi : ∀ n ∈ pathNames imported.path, n ∈ (crate.graph D).names asked) :
    ∃ scope', (crate.db D).searchImport recurse m scope imported = some scope' ∧
      scope'.Named D := by
  have hgives : ∀ ns, Gives D.Good
      ((crate.db D).resolvePathInModule recurse (.local m) imported.path ns) :=
    fun ns => resolvePathInModule_gives hD h hi
  obtain ⟨resolved, hresolved, hgood⟩ := hgives .type
  obtain ⟨values, hvalues, -⟩ := hgives .value
  have hbinding : ∃ scope', (do
      let valueResolved ←
        if resolved = [] then (crate.db D).resolveUse recurse (.local m) imported.path .value
        else some []
      let scope := scope.incompleteIf (resolved = [] ∧ valueResolved = [])
      return (resolved.filter Symbol.isTrait).foldl MethodScope.push scope) = some scope' ∧
        scope'.Named D := by
    by_cases hnil : resolved = []
    · refine ⟨_, by rw [if_pos hnil, SymbolDb.resolveUse, hvalues]; rfl, ?_⟩
      intro e he
      rw [MethodScope.searched_foldl_push, MethodScope.searched_incompleteIf] at he
      exact hscope e he
    · refine ⟨_, by rw [if_neg hnil]; rfl, ?_⟩
      intro e he
      rw [MethodScope.searched_foldl_push, MethodScope.searched_incompleteIf] at he
      exact hscope e he
  rw [SymbolDb.searchImport, SymbolDb.resolveUse, hresolved, Option.bind_eq_bind, Option.bind_some]
  cases imported.kind with
  | named binding => exact hbinding
  | unnamed => exact hbinding
  | glob =>
    refine ⟨_, rfl, foldl_named (fun scope module hs hm => ?_) ?_ (modules_good hgood)⟩
    · cases module with
      | «local» m' => exact hs
      | ext e => exact searchExternal_named hs hm
    · intro e he
      rw [MethodScope.searched_incompleteIf] at he
      exact hscope e he

theorem searchImports_end {m : LocalModSym} : ∀ {imports : List UseImport} {scope : MethodScope},
    scope.Named D →
    (∀ imported ∈ imports, ∀ n ∈ pathNames imported.path, n ∈ (crate.graph D).names asked) →
    ∃ scope', imports.foldlM ((crate.db D).searchImport recurse m) scope = some scope' ∧
      scope'.Named D := by
  intro imports
  induction imports with
  | nil => exact fun {scope} hscope _ => ⟨scope, rfl, hscope⟩
  | cons imported imports ih =>
    intro scope hscope hi
    obtain ⟨scope', heq, hscope'⟩ :=
      searchImport_ends hD h (m := m) hscope (hi imported List.mem_cons_self)
    obtain ⟨scope'', heq', hscope''⟩ :=
      ih hscope' fun imported hmem => hi imported (List.mem_cons_of_mem _ hmem)
    refine ⟨scope'', ?_, hscope''⟩
    rw [List.foldlM_cons, heq]
    exact heq'

omit hD in
theorem searchPrelude_ends {scope : MethodScope} (hscope : scope.Named D) :
    ∃ scope', (crate.db D).searchPrelude recurse scope = some scope' ∧ scope'.Named D := by
  rw [SymbolDb.searchPrelude]
  split
  · exact ⟨_, rfl, hscope⟩
  rename_i stdModule hstd
  obtain ⟨symbol, hsymbol, hmodule⟩ := Option.bind_eq_some_iff.mp hstd
  have hgood : D.Good (.mod stdModule) :=
    @modules_good D [symbol]
      (fun s hs => List.mem_singleton.mp hs ▸ externPrelude_good hsymbol) stdModule
      (List.mem_filterMap.mpr ⟨symbol, List.mem_singleton.mpr rfl, hmodule⟩)
  obtain ⟨preludes, hpreludes, hpreludesGood⟩ := h _ _ .type hgood Finite.prelude_mem_names
  have hrecurse : Gives D.Good (flatMapM
      (fun module => recurse module (crate.db D).preludeModule .type)
      (preludes.filterMap Symbol.module)) :=
    flatMapM_gives fun module hmem =>
      h _ _ .type (modules_good hpreludesGood module hmem) Finite.preludeModule_mem_names
  obtain ⟨editions, heditions, heditionsGood⟩ := hrecurse
  rw [hpreludes, Option.bind_eq_bind, Option.bind_some]
  dsimp only
  rw [heditions, Option.bind_some]
  refine ⟨_, rfl, foldl_named (fun scope module hs hm => ?_) ?_ (modules_good heditionsGood)⟩
  · cases module with
    | «local» m =>
      intro e he
      rw [MethodScope.searched_foldl_push] at he
      exact hs e he
    | ext e => exact searchExternal_named hs hm
  · intro e he
    rw [MethodScope.searched_incompleteIf] at he
    exact hscope e he

end Providers

include hD in
theorem traitsInMethodScope_ends (phase : ResolvePhase) (m : LocalModSym) (complete : Bool) :
    ∃ fuel scope, (crate.db D).traitsInMethodScope phase fuel m complete = some scope ∧
      scope.Named D := by
  have hends : ∀ module name ns, D.Good (.mod module) → name ∈ (crate.graph D).names [] →
      Gives D.Good ((crate.db D).resolveNameFromModule phase
        (((crate.graph D).queries []).card + 1) [] module name ns) :=
    fun module name ns hm hn => resolveNameFromModule_gives hD phase hm hn
      (Nat.lt_succ_of_le (Finset.card_le_card Finset.sdiff_subset))
  have himports : ∀ imported ∈ (crate.db D).moduleImports m, ∀ n ∈ pathNames imported.path,
      n ∈ (crate.graph D).names [] := by
    intro imported himported n hn
    obtain ⟨item, hitem, hmem⟩ := List.mem_flatMap.mp himported
    cases item with
    | use id =>
      refine Finite.mem_names_of_import (G := crate.graph D) ?_ hitem hmem hn
      by_contra hnot
      have hempty : (crate.db D).expandedItems m = [] := crate.items m hnot
      rw [hempty] at hitem
      exact List.not_mem_nil hitem
    | mod m' => exact absurd hmem List.not_mem_nil
    | other kind id => exact absurd hmem List.not_mem_nil
  have hown : ((((crate.db D).expandedModuleItems (.local m)).filter Symbol.isTrait).foldl
      MethodScope.pushDefinite ⟨[], complete, []⟩).Named D := by
    intro e he
    rw [MethodScope.searched_foldl_pushDefinite] at he
    exact absurd he List.not_mem_nil
  obtain ⟨scope, hscope, hnamed⟩ := searchImports_end hD hends (m := m) hown himports
  obtain ⟨scope', hscope', hnamed'⟩ := searchPrelude_ends hends hnamed
  refine ⟨((crate.graph D).queries []).card + 1, scope', ?_, hnamed'⟩
  rw [SymbolDb.traitsInMethodScope]
  dsimp only
  rw [hscope]
  exact hscope'

theorem listing_represented {db : SymbolDb} (segments : List Name) :
    ∀ symbol ∈ db.listing segments, symbol.isRepresented = true := by
  intro symbol hsymbol
  rw [SymbolDb.listing] at hsymbol
  split at hsymbol
  · obtain ⟨item, -, rfl⟩ := List.mem_map.mp hsymbol
    cases item <;> rfl
  · exact absurd hsymbol List.not_mem_nil

end Gives

/-! ### Lookups over other children -/

section Fails

variable {D : Metadata} {e : SymExt} {db : SymbolDb}
  {recurse : ModSymbol → Name → Namespace → Option (List Symbol)}

/-- The kind of a module is in the type namespace only. -/
theorem Metadata.ns_of_mod {child : RawChild} (hmem : child ∈ D.moduleChildren e)
    (hkind : child.definition.kind = .mod) : child.ns = .type := by
  obtain ⟨c, -, d, -, -, ns, hns, rfl⟩ := mem_moduleChildren.mp hmem
  dsimp only [symExt] at hkind
  cases hd : D.defKind d with
  | mod =>
    rw [hd] at hns
    exact List.mem_singleton.mp hns
  | ctor ctorOf =>
    rw [hd] at hkind
    cases ctorOf <;> cases hkind
  | _ =>
    rw [hd] at hkind
    cases hkind

/-- Anything but a local module: a name in it is looked up without another query. -/
def Symbol.Outside (symbol : Symbol) : Prop := ∀ m, symbol ≠ .mod (.local m)

theorem outside_symbol (definition : SymExt) : definition.symbol.Outside := by
  intro m
  rw [SymExt.symbol]
  split <;> exact fun h => by cases h

theorem resolveNameIn_outside {crate : LocalSyntax} {symbol : Symbol} (h : symbol.Outside)
    (name : Name) (ns : Namespace) :
    Gives Symbol.Outside ((crate.db D).resolveNameIn recurse symbol name ns) := by
  have hdefinitions : ∀ definitions : List SymExt,
      ∀ s ∈ definitions.map SymExt.symbol, s.Outside := by
    intro definitions s hs
    obtain ⟨definition, -, rfl⟩ := List.mem_map.mp hs
    exact outside_symbol definition
  have hchildren : ∀ s ∈ (crate.db D).children symbol, s.Outside := by
    intro s hs
    rw [SymbolDb.children] at hs
    split at hs
    · rename_i henum
      cases symbol with
      | mod module => cases henum
      | use id => cases henum
      | ext e => exact hdefinitions _ s hs
      | «local» kind id =>
        cases kind with
        | enum =>
          obtain ⟨entry, -, rfl⟩ := List.mem_map.mp hs
          exact fun _ h => by cases h
        | _ => cases henum
    · exact absurd hs List.not_mem_nil
  rw [SymbolDb.resolveNameIn]
  cases symbol with
  | mod module =>
    cases module with
    | «local» m => exact absurd rfl (h m)
    | ext e => exact ⟨_, rfl, hdefinitions _⟩
  | _ => exact ⟨_, rfl, fun s hs => hchildren s (List.mem_of_mem_filter hs)⟩

theorem resolveRemainingSegments_outside {crate : LocalSyntax} (rest : List Name) :
    ∀ symbols, (∀ s ∈ symbols, s.Outside) →
      Gives Symbol.Outside ((crate.db D).resolveRemainingSegments recurse .type rest symbols) := by
  induction rest with
  | nil => exact fun _ _ => ⟨[], rfl, fun _ hs => absurd hs List.not_mem_nil⟩
  | cons next rest ih =>
    intro symbols hsymbols
    cases rest with
    | nil =>
      exact flatMapM_gives fun s hs => resolveNameIn_outside (hsymbols s hs) next .type
    | cons second rest =>
      exact flatMapM_gives fun s hs =>
        (resolveNameIn_outside (hsymbols s hs) next .type).bind fun found hfound =>
          ih found hfound

/-- The way to a module, as the segments of a path. -/
theorem mem_resolveRemainingSegments {crate : LocalSyntax} {e e' : SymExt} {path : List Name}
    (h : D.Reaches e path e') : path ≠ [] → ∀ symbols results, .mod (.ext e) ∈ symbols →
      (crate.db D).resolveRemainingSegments recurse .type path symbols = some results →
        .mod (.ext e') ∈ results := by
  induction h with
  | refl e => exact fun hne => absurd rfl hne
  | @step e e' child path member kind rest ih =>
    intro _ symbols results hmem hresults
    have hchild : .mod (.ext child.definition) ∈
        ((crate.db D).namedChildren e child.name .type).map SymExt.symbol := by
      refine List.mem_map.mpr ⟨child.definition, ?_, by rw [SymExt.symbol, if_pos kind]⟩
      refine List.mem_map.mpr ⟨child, List.mem_filter.mpr ⟨member, ?_⟩, rfl⟩
      have hother : child.definition.kind ≠ .other := by
        rw [kind]
        exact fun h => by cases h
      exact decide_eq_true ⟨hother, rfl, Metadata.ns_of_mod member kind⟩
    cases path with
    | nil =>
      cases rest
      obtain ⟨found, hfound, hsub⟩ := mem_flatMapM hresults hmem
      obtain rfl := Option.some.inj hfound
      exact hsub hchild
    | cons second path =>
      obtain ⟨found, hfound, hsub⟩ := mem_flatMapM hresults hmem
      exact hsub (ih (List.cons_ne_nil _ _) _ found hchild hfound)

/-- A path to a module that can be named, from anywhere. -/
theorem Metadata.Nameable.path (h : D.Nameable e) : ∃ path : Path, ∀ (crate : LocalSyntax) recurse
    (m : LocalModSym), ∃ results, .mod (.ext e) ∈ results ∧
      (crate.db D).resolveUse recurse (.local m) path .type = some results := by
  obtain ⟨name, crateNum, path, hcrate, hreaches⟩ := h
  refine ⟨.anchored (.externCrate name) path, fun crate recurse m => ?_⟩
  have hanchor : (crate.db D).resolveAnchor (.local m) (.externCrate name) =
      [.ext (.root crateNum)] := by
    have hcrate' : (crate.db D).externCrate name = some crateNum := hcrate
    simp only [SymbolDb.resolveAnchor, SymbolDb.lookupExternPrelude, hcrate', ne_eq,
      not_true_eq_false, if_false, Option.map_some, Option.bind_some, Symbol.module,
      Option.toList_some]
  cases path with
  | nil =>
    cases hreaches
    refine ⟨[.mod (.ext (.root crateNum))], List.mem_singleton.mpr rfl, ?_⟩
    simp only [SymbolDb.resolveUse, SymbolDb.resolvePathInModule, hanchor, ne_eq,
      not_true_eq_false, if_false, List.map_cons, List.map_nil]
  | cons first path =>
    have hgives : Gives Symbol.Outside ((crate.db D).resolveRemainingSegments recurse .type
        (first :: path) [.mod (.ext (.root crateNum))]) :=
      resolveRemainingSegments_outside _ _ fun s hs m hm => by
        rw [List.mem_singleton.mp hs] at hm
        cases hm
    obtain ⟨results, hresults, -⟩ := hgives
    refine ⟨results, mem_resolveRemainingSegments hreaches (List.cons_ne_nil _ _) _ results
      (List.mem_singleton.mpr rfl) hresults, ?_⟩
    simp only [SymbolDb.resolveUse, SymbolDb.resolvePathInModule, hanchor, List.map_cons,
      List.map_nil]
    exact hresults

/-- The crate `use path::*;`. -/
def globCrate (path : Path) : LocalSyntax where
  text _ := none
  modules := {.root}
  expandedItems
    | .root => [.use 0]
    | _ => []
  items m hm := by
    cases m with
    | root => exact absurd (Finset.mem_singleton.mpr rfl) hm
    | child parent id => rfl
  imports _ := [⟨path, .glob⟩]
  useIsActive _ := false
  variants _ := []
  intrinsic _ := none
  preludeModule := "rust_2021"
  expansionComplete _ := true

/-- A module with another child has no answer for any name. -/
theorem lookupInModule_eq_none {child : RawChild} {crate : LocalSyntax}
    (hmem : child ∈ D.moduleChildren e) (hkind : child.definition.kind.isRepresented = false)
    (filter : LookupFilter) (name : Name) :
    (crate.db D).lookupInModule recurse filter (.ext e) name .type = none := by
  have hitem : child.definition.symbol ∈ (crate.db D).expandedModuleItems (.ext e) :=
    List.mem_map.mpr ⟨child.definition, List.mem_map.mpr ⟨child, hmem, rfl⟩, rfl⟩
  have hsymbol : child.definition.symbol = .ext child.definition := by
    rw [SymExt.symbol, if_neg]
    intro hmod
    rw [hmod] at hkind
    cases hkind
  refine flatMapM_eq_none hitem ?_
  rw [hsymbol, SymbolDb.lookupItem]
  · rw [if_pos]
    exact hkind
  · exact fun _ h => by cases h
  · rintro c i heq
    have hdef := Symbol.ext.inj heq
    exact Metadata.kind_ne_use hmem (by rw [hdef])

/-- With a glob import of such a module no name is looked up. -/
theorem globCrate_eq_none {child : RawChild} {path : Path}
    (hmem : child ∈ D.moduleChildren e) (hkind : child.definition.kind.isRepresented = false)
    (hpath : ∀ recurse, ∃ results, .mod (.ext e) ∈ results ∧
      ((globCrate path).db D).resolveUse recurse (.local .root) path .type = some results)
    (fuel : Nat) (name : Name) :
    ((globCrate path).db D).resolveNameFromModule .normal fuel [] (.local .root) name .type =
      none := by
  cases fuel with
  | zero => rfl
  | succ fuel =>
    rw [SymbolDb.resolveNameFromModule, if_neg List.not_mem_nil]
    have hnamed : ∀ recurse, ((globCrate path).db D).lookupInModule recurse ⟨.all, false⟩
        (.local .root) name .type = some [] := fun _ => rfl
    obtain ⟨results, he, hresults⟩ := hpath (((globCrate path).db D).resolveNameFromModule .normal
      fuel [⟨.local .root, name, .type⟩])
    have hglob : ((globCrate path).db D).resolveGlob
        (((globCrate path).db D).resolveNameFromModule .normal fuel
          [⟨.local .root, name, .type⟩]) results name .type = none := by
      refine flatMapM_eq_none he ?_
      show ((globCrate path).db D).resolveNameFromModule .normal fuel _ (.ext e) name .type = none
      cases fuel with
      | zero => rfl
      | succ fuel =>
        rw [SymbolDb.resolveNameFromModule, if_neg ?_, SymbolDb.lookupByPhase,
          lookupInModule_eq_none hmem hkind]
        · rfl
        · intro hflight
          cases List.mem_singleton.mp hflight
    have hglobs : ((globCrate path).db D).lookupInModule
        (((globCrate path).db D).resolveNameFromModule .normal fuel
          [⟨.local .root, name, .type⟩]) ⟨.none, true⟩ (.local .root) name .type = none := by
      refine flatMapM_eq_none (a := .use 0) List.mem_cons_self ?_
      refine flatMapM_eq_none (a := ⟨path, .glob⟩) List.mem_cons_self ?_
      simp only [SymbolDb.lookupImport, if_true]
      rw [hresults, Option.bind_eq_bind, Option.bind_some]
      exact hglob
    rw [SymbolDb.lookupByPhase, hnamed, Option.bind_eq_bind, Option.bind_some]
    rw [if_neg (fun h => h rfl), hglobs]
    rfl

end Fails

/-! ### The lookups that are safe -/

/-- Every lookup of every local crate gets to a result, whose symbols have represented kinds, and
a complete search for providers leaves no child out. -/
structure Handled (D : Metadata) : Prop where
  path (crate : LocalSyntax) (phase : ResolvePhase) (m : LocalModSym) (path : Path)
    (ns : Namespace) : ∃ fuel results,
      (crate.db D).resolvePath phase fuel (.local m) path ns = some results ∧
        ∀ symbol ∈ results, symbol.isRepresented = true
  /-- What a lookup finds on the way. -/
  found (crate : LocalSyntax) (phase : ResolvePhase) (fuel : Nat) (inFlight : List InFlightQuery)
    (module : ModSymbol) (name : Name) (ns : Namespace) (results : List Symbol) :
    (∀ e, module = .ext e → D.Nameable e) →
      (crate.db D).resolveNameFromModule phase fuel inFlight module name ns = some results →
        ∀ symbol ∈ results, symbol.isRepresented = true
  member (e : SymExt) (name : Name) (ns : Namespace) : D.Nameable e →
    ∀ definition ∈ D.namedChildren e name ns, definition.kind.isRepresented = true
  providers (crate : LocalSyntax) (m : LocalModSym) : ∃ fuel scope,
    (crate.db D).traitsInMethodScope .normal fuel m (crate.expansionComplete m) = some scope ∧
      (scope.complete = true → ∀ e ∈ scope.searched, ∀ child ∈ D.moduleChildren e,
        child.definition.kind.isRepresented = true)
  listing (crate : LocalSyntax) (segments : List Name) :
    ∀ symbol ∈ (crate.db D).listing segments, symbol.isRepresented = true

/-- A crate that globs a module with another child has no answer. -/
theorem Handled.represented {D : Metadata} (h : Handled D) : D.Represented := by
  intro e he child hmem
  by_contra hkind
  obtain ⟨path, hpath⟩ := he.path
  obtain ⟨fuel, results, hresults, -⟩ :=
    h.path (globCrate path) .normal .root (.relative "x" []) .type
  have hnone := globCrate_eq_none hmem (Bool.eq_false_of_not_eq_true hkind)
    (fun recurse => hpath (globCrate path) recurse .root) fuel "x"
  rw [SymbolDb.resolvePath, SymbolDb.resolvePathInModule, SymbolDb.flexiblyResolve, hnone]
    at hresults
  cases hresults

/-- The crate `dep` with `pub struct Wrapping(pub u8);`. -/
def wrappingMetadata : Metadata where
  children d :=
    if d = ⟨1, 0⟩ then [⟨"Wrapping", some ⟨1, 1⟩, true⟩, ⟨"Wrapping", some ⟨1, 2⟩, true⟩] else []
  defKind d :=
    if d = ⟨1, 1⟩ then .struct else if d = ⟨1, 2⟩ then .ctor .struct else .mod
  itemName _ := none
  externCrate name := if name = "dep" then some 1 else none
  enumChildren d henum := by
    split at henum
    · cases henum
    · split at henum <;> cases henum

end Sage.Resolve
