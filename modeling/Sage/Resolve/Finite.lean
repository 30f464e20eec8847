import Mathlib.Data.Finset.Card
import Mathlib.Data.Finset.Prod
import Sage.Resolve.Lookup

/-!
# Resolve — lookup ends

In a finite module graph the queries a lookup makes are of finitely many modules, names and
namespaces, and a query in flight is not made again, so with enough fuel every lookup gives a
result, the same for any more of it.

* `Finite` — the finite graphs.
* `Finite.resolvePath_ends` — lookup in one ends.
-/

namespace Sage.Resolve

open Loop

namespace SymbolDb

variable {db : SymbolDb}

/-! ### More fuel -/

section Agree

variable {recurse recurse' : ModSymbol → Name → Namespace → Option (List Symbol)}
  (h : ∀ module name ns, Refines (recurse module name ns) (recurse' module name ns))
include h

theorem resolveNameIn_refines (symbol : Symbol) (name : Name) (ns : Namespace) :
    Refines (db.resolveNameIn recurse symbol name ns) (db.resolveNameIn recurse' symbol name ns) := by
  rw [resolveNameIn, resolveNameIn]
  split
  · exact .refl _
  · exact h _ _ _
  · exact .refl _

theorem resolveGlob_refines (globFrom : List Symbol) (name : Name) (ns : Namespace) :
    Refines (db.resolveGlob recurse globFrom name ns) (db.resolveGlob recurse' globFrom name ns) := by
  refine flatMapM_refines fun symbol _ => ?_
  split
  · exact h _ _ _
  · split
    · exact resolveNameIn_refines h symbol name ns
    · exact .refl _

theorem lookupStdPrelude_refines (name : Name) (ns : Namespace) :
    Refines (db.lookupStdPrelude recurse name ns) (db.lookupStdPrelude recurse' name ns) := by
  rw [lookupStdPrelude, lookupStdPrelude]
  split
  · exact .refl _
  · exact (h _ _ _).bind fun preludes => (flatMapM_refines fun module _ => h _ _ _).bind
      fun editions => resolveGlob_refines h editions name ns

theorem flexiblyResolve_refines (module : ModSymbol) (name : Name) (ns : Namespace) :
    Refines (db.flexiblyResolve recurse module name ns)
      (db.flexiblyResolve recurse' module name ns) := by
  refine (h _ _ _).bind fun results => ?_
  split
  · exact .refl _
  · split
    · exact .refl _
    · exact (lookupStdPrelude_refines h name ns).bind fun _ => .refl _

theorem resolveRemainingSegments_refines (ns : Namespace) (rest : List Name) :
    ∀ symbols, Refines (db.resolveRemainingSegments recurse ns rest symbols)
      (db.resolveRemainingSegments recurse' ns rest symbols) := by
  induction rest with
  | nil => exact fun symbols => .refl _
  | cons next rest ih =>
      intro symbols
      cases rest with
      | nil => exact flatMapM_refines fun symbol _ => resolveNameIn_refines h symbol next ns
      | cons second rest =>
          exact flatMapM_refines fun symbol _ => (resolveNameIn_refines h symbol next .type).bind ih

theorem resolvePathInModule_refines (module : ModSymbol) (path : Path) (ns : Namespace) :
    Refines (db.resolvePathInModule recurse module path ns)
      (db.resolvePathInModule recurse' module path ns) := by
  simp only [resolvePathInModule]
  split
  · exact flexiblyResolve_refines h _ _ _
  · exact (flexiblyResolve_refines h _ _ _).bind fun symbols =>
      resolveRemainingSegments_refines h ns _ symbols
  · exact .refl _
  · exact resolveRemainingSegments_refines h ns _ _

theorem lookupImport_refines (filter : LookupFilter) (module : ModSymbol) (name : Name)
    (ns : Namespace) (imported : UseImport) :
    Refines (db.lookupImport recurse filter module name ns imported)
      (db.lookupImport recurse' filter module name ns imported) := by
  simp only [lookupImport]
  split
  · split
    · exact resolvePathInModule_refines h _ _ _
    · exact .refl _
  · split
    · exact (resolvePathInModule_refines h _ _ _).bind fun globFrom =>
        resolveGlob_refines h globFrom name ns
    · exact .refl _
  · exact .refl _

theorem lookupInModule_refines (filter : LookupFilter) (module : ModSymbol) (name : Name)
    (ns : Namespace) : Refines (db.lookupInModule recurse filter module name ns)
      (db.lookupInModule recurse' filter module name ns) := by
  simp only [lookupInModule]
  split
  · exact .refl _
  · refine flatMapM_refines fun item _ => ?_
    simp only [lookupItem]
    split
    · split
      · exact .refl _
      · exact flatMapM_refines fun imported _ => lookupImport_refines h _ _ _ _ imported
    · exact .refl _
    · exact .refl _

theorem lookupByPhase_refines (phase : ResolvePhase) (module : ModSymbol) (name : Name)
    (ns : Namespace) : Refines (db.lookupByPhase recurse phase module name ns)
      (db.lookupByPhase recurse' phase module name ns) := by
  cases phase with
  | macroExpansion => exact lookupInModule_refines h _ _ _ _
  | normal =>
      refine (lookupInModule_refines h _ _ _ _).bind fun results => ?_
      split
      · exact .refl _
      · exact lookupInModule_refines h _ _ _ _

end Agree

theorem resolveNameFromModule_mono (phase : ResolvePhase) {n m : Nat} (hn : n ≤ m) :
    ∀ inFlight module name ns, Refines (db.resolveNameFromModule phase n inFlight module name ns)
      (db.resolveNameFromModule phase m inFlight module name ns) := by
  induction n generalizing m with
  | zero => exact fun _ _ _ _ _ h => by cases h
  | succ n ih =>
      obtain ⟨m, rfl⟩ : ∃ k, m = k + 1 := ⟨m - 1, (Nat.sub_add_cancel (Nat.one_le_of_lt hn)).symm⟩
      intro inFlight module name ns results hresults
      simp only [resolveNameFromModule] at hresults ⊢
      split
      · rename_i hmem
        rwa [if_pos hmem] at hresults
      · rename_i hmem
        rw [if_neg hmem] at hresults
        obtain ⟨found, hfound, rfl⟩ := Option.map_eq_some_iff.mp hresults
        have hle : n ≤ m := Nat.le_of_succ_le_succ hn
        rw [lookupByPhase_refines (fun _ _ _ => ih hle _ _ _ _) phase module name ns found hfound]
        rfl

theorem resolvePath_mono (phase : ResolvePhase) {n m : Nat} (hn : n ≤ m) (module : ModSymbol)
    (path : Path) (ns : Namespace) :
    Refines (db.resolvePath phase n module path ns) (db.resolvePath phase m module path ns) :=
  resolvePathInModule_refines (fun _ _ _ => resolveNameFromModule_mono phase hn _ _ _ _) _ _ _

end SymbolDb

/-! ### Finite module graphs -/

/-- The names a path mentions. -/
def pathNames : Path → List Name
  | .relative first rest => first :: rest
  | .anchored _ segments => segments

def Namespace.all : Finset Namespace :=
  {.type, .value, .macros .bang, .macros .attr, .macros .derive}

theorem Namespace.mem_all (ns : Namespace) : ns ∈ Namespace.all := by
  rcases ns with _ | _ | kind
  · decide
  · decide
  · cases kind <;> decide

/-- The names the imports of these items mention. -/
def SymbolDb.importNames (db : SymbolDb) (items : List LocalModItemSym) : List Name :=
  items.flatMap fun item =>
    match item with
    | .use id => (db.imports id).flatMap fun imported => pathNames imported.path
    | _ => []

/-- Finitely many local modules have items, and what an external module exports is a definition of
a kind that is represented, never a `use` item. -/
structure Finite (db : SymbolDb) where
  modules : Finset LocalModSym
  items : ∀ m ∉ modules, db.expandedItems m = []
  children : ∀ e, ∀ c ∈ db.moduleChildren e, c.kind.isRepresented = true ∧ c.kind ≠ .use

namespace Finite

variable {db : SymbolDb} (G : Finite db)

/-- Every name that the lookup of these names can ask for. -/
@[grind =] def names (asked : List Name) : Finset Name :=
  ("prelude" :: db.preludeModule :: asked).toFinset ∪
    G.modules.biUnion fun m => (db.importNames (db.expandedItems m)).toFinset

variable {G} {asked : List Name} {module : ModSymbol} {name : Name} {ns : Namespace}
  {symbol : Symbol}

theorem mem_names_of_asked (h : name ∈ asked) : name ∈ G.names asked := by
  simp [names, h]

theorem prelude_mem_names : "prelude" ∈ G.names asked := by
  simp [names]

theorem preludeModule_mem_names : db.preludeModule ∈ G.names asked := by
  simp [names]

theorem mem_names_of_import {m : LocalModSym} (hm : m ∈ G.modules) {id : Nat}
    (hid : .use id ∈ db.expandedItems m) {imported : UseImport} (hi : imported ∈ db.imports id)
    (hn : name ∈ pathNames imported.path) : name ∈ G.names asked := by
  refine Finset.mem_union_right _ (Finset.mem_biUnion.mpr ⟨m, hm, List.mem_toFinset.mpr ?_⟩)
  exact List.mem_flatMap.mpr ⟨_, hid, List.mem_flatMap.mpr ⟨imported, hi, hn⟩⟩

/-- No module has an external `use` item, or one of a kind that is not represented. -/
theorem implemented (G : Finite db) (h : symbol ∈ db.expandedModuleItems module) :
    symbol.isRepresented = true ∧ ∀ c i, symbol ≠ .ext ⟨c, i, .use⟩ := by
  cases module with
  | «local» m =>
      obtain ⟨item, -, rfl⟩ := List.mem_map.mp h
      cases item <;> exact ⟨rfl, fun _ _ => Symbol.noConfusion⟩
  | ext e =>
      obtain ⟨child, hchild, rfl⟩ := List.mem_map.mp h
      obtain ⟨hkind, huse⟩ := G.children e child hchild
      rw [SymExt.symbol]
      split
      · exact ⟨rfl, fun _ _ => Symbol.noConfusion⟩
      · refine ⟨hkind, ?_⟩
        rintro c i ⟨⟩
        exact huse rfl

/-! ### Lookup ends -/

theorem lookupItem_ends {recurse : ModSymbol → Name → Namespace → Option (List Symbol)}
    {filter : LookupFilter} (hu : ∀ id, symbol ≠ .use id) (hr : symbol.isRepresented = true)
    (he : ∀ c i, symbol ≠ .ext ⟨c, i, .use⟩) :
    Ends (db.lookupItem recurse filter module name ns symbol) := by
  rw [SymbolDb.lookupItem]
  · rw [if_neg (by rw [hr]; exact Bool.noConfusion)]
    split <;> exact .pure _
  · exact hu
  · exact he

section Ends

variable {recurse : ModSymbol → Name → Namespace → Option (List Symbol)}
  (h : ∀ module name ns, name ∈ G.names asked → Ends (recurse module name ns))
include h

theorem resolveNameIn_ends (hn : name ∈ G.names asked) :
    Ends (db.resolveNameIn recurse symbol name ns) := by
  rw [SymbolDb.resolveNameIn]
  split
  · exact .pure _
  · exact h _ _ _ hn
  · exact .pure _

theorem resolveGlob_ends (globFrom : List Symbol) (hn : name ∈ G.names asked) :
    Ends (db.resolveGlob recurse globFrom name ns) := by
  refine flatMapM_ends fun symbol _ => ?_
  split
  · exact h _ _ _ hn
  · split
    · exact resolveNameIn_ends h hn
    · exact .pure _

theorem lookupStdPrelude_ends (hn : name ∈ G.names asked) :
    Ends (db.lookupStdPrelude recurse name ns) := by
  rw [SymbolDb.lookupStdPrelude]
  split
  · exact .pure _
  · exact (h _ _ _ prelude_mem_names).bind fun preludes =>
      (flatMapM_ends fun m _ => h _ _ _ preludeModule_mem_names).bind
        fun editions => resolveGlob_ends h editions hn

theorem flexiblyResolve_ends (hn : name ∈ G.names asked) :
    Ends (db.flexiblyResolve recurse module name ns) := by
  refine (h _ _ _ hn).bind fun results => ?_
  split
  · exact .pure _
  split
  · exact .pure _
  · refine (lookupStdPrelude_ends h hn).bind fun results => ?_
    split <;> exact .pure _

theorem resolveRemainingSegments_ends {rest : List Name} (hrest : ∀ n ∈ rest, n ∈ G.names asked) :
    ∀ symbols, Ends (db.resolveRemainingSegments recurse ns rest symbols) := by
  induction rest with
  | nil => exact fun _ => .pure []
  | cons next rest ih =>
      intro symbols
      have hnext := hrest next List.mem_cons_self
      cases rest with
      | nil => exact flatMapM_ends fun symbol _ => resolveNameIn_ends h hnext
      | cons second rest =>
          exact flatMapM_ends fun symbol _ => (resolveNameIn_ends h hnext).bind
            (ih fun n hn => hrest n (List.mem_cons_of_mem _ hn))

theorem resolvePathInModule_ends {path : Path} (hp : ∀ n ∈ pathNames path, n ∈ G.names asked) :
    Ends (db.resolvePathInModule recurse module path ns) := by
  simp only [SymbolDb.resolvePathInModule]
  split
  · exact flexiblyResolve_ends h (hp _ List.mem_cons_self)
  · exact (flexiblyResolve_ends h (hp _ List.mem_cons_self)).bind
      (resolveRemainingSegments_ends h fun n hn => hp n (List.mem_cons_of_mem _ hn))
  · split <;> exact .pure _
  · exact resolveRemainingSegments_ends h hp _

theorem lookupImport_ends {filter : LookupFilter} {imported : UseImport}
    (hn : name ∈ G.names asked) (hi : ∀ n ∈ pathNames imported.path, n ∈ G.names asked) :
    Ends (db.lookupImport recurse filter module name ns imported) := by
  simp only [SymbolDb.lookupImport]
  split
  · split
    · exact resolvePathInModule_ends h hi
    · exact .pure _
  · split
    · exact (resolvePathInModule_ends h hi).bind fun globFrom => resolveGlob_ends h globFrom hn
    · exact .pure _
  · exact .pure _

theorem lookupInModule_ends {filter : LookupFilter} {m : LocalModSym} (hm : m ∈ G.modules)
    (hn : name ∈ G.names asked) :
    Ends (db.lookupInModule recurse filter (.local m) name ns) := by
  refine flatMapM_ends fun symbol hs => ?_
  obtain ⟨item, hitem, rfl⟩ := List.mem_map.mp hs
  cases item with
  | use id =>
      rw [LocalModItemSym.symbol, SymbolDb.lookupItem]
      split
      · exact .pure _
      · exact flatMapM_ends fun imported hi =>
          lookupImport_ends h hn fun n hn => mem_names_of_import hm hitem hi hn
  | mod m =>
      exact lookupItem_ends (fun _ => Symbol.noConfusion) rfl (fun _ _ => Symbol.noConfusion)
  | other kind id =>
      exact lookupItem_ends (fun _ => Symbol.noConfusion) rfl (fun _ _ => Symbol.noConfusion)

end Ends

/-- Modules without local items make no further queries. -/
theorem lookupInModule_leaf {recurse : ModSymbol → Name → Namespace → Option (List Symbol)}
    {filter : LookupFilter} (hm : ∀ m ∈ G.modules, module ≠ .local m) :
    Ends (db.lookupInModule recurse filter module name ns) := by
  cases module with
  | «local» m =>
      have hempty : db.expandedItems m = [] := G.items m fun hmem => hm m hmem rfl
      rw [SymbolDb.lookupInModule, SymbolDb.expandedModuleItems, hempty]
      · exact .pure []
      · intro e kind he
        cases he
  | ext e =>
      simp only [SymbolDb.lookupInModule]
      split
      · split <;> exact .pure _
      · refine flatMapM_ends fun symbol hs => ?_
        obtain ⟨hrepresented, huse⟩ := G.implemented hs
        refine lookupItem_ends ?_ hrepresented huse
        obtain ⟨c, -, rfl⟩ := List.mem_map.mp hs
        rw [SymExt.symbol]
        split <;> exact fun _ => Symbol.noConfusion

/-- The queries that can be in flight. -/
def queries (asked : List Name) : Finset InFlightQuery :=
  (G.modules ×ˢ G.names asked ×ˢ Namespace.all).image fun q => ⟨.local q.1, q.2.1, q.2.2⟩

theorem lookupByPhase_ends {phase : ResolvePhase}
    {recurse : ModSymbol → Name → Namespace → Option (List Symbol)}
    (h : ∀ filter, Ends (db.lookupInModule recurse filter module name ns)) :
    Ends (db.lookupByPhase recurse phase module name ns) := by
  cases phase with
  | macroExpansion => exact h _
  | normal =>
      refine (h _).bind fun results => ?_
      split
      · exact .pure _
      · exact h _

/-- Each query puts one more in flight, of finitely many. -/
theorem resolveNameFromModule_ends (phase : ResolvePhase) {n : Nat} :
    ∀ {inFlight : List InFlightQuery} {module name ns}, name ∈ G.names asked →
      (G.queries asked \ inFlight.toFinset).card < n →
      Ends (db.resolveNameFromModule phase n inFlight module name ns) := by
  induction n with
  | zero => exact fun _ h => absurd h (Nat.not_lt_zero _)
  | succ n ih =>
      intro inFlight module name ns hn hcard
      rw [SymbolDb.resolveNameFromModule]
      split
      · exact .pure _
      rename_i hmem
      suffices hends : Ends (db.lookupByPhase (db.resolveNameFromModule phase n
          (⟨module, name, ns⟩ :: inFlight)) phase module name ns) by
        obtain ⟨found, hfound⟩ := hends
        exact ⟨found.eraseDups, by rw [hfound]; rfl⟩
      refine lookupByPhase_ends fun filter => ?_
      by_cases hm : ∃ m ∈ G.modules, module = .local m
      · obtain ⟨m, hm, rfl⟩ := hm
        refine lookupInModule_ends (fun module' name' ns' hn' => ih hn' ?_) hm hn
        have hq : (⟨.local m, name, ns⟩ : InFlightQuery) ∈ G.queries asked := by
          refine Finset.mem_image.mpr ⟨(m, name, ns), ?_, rfl⟩
          exact Finset.mk_mem_product hm (Finset.mk_mem_product hn ns.mem_all)
        refine Nat.lt_of_lt_of_le (Finset.card_lt_card ?_) (Nat.le_of_lt_succ hcard)
        rw [List.toFinset_cons]
        refine Finset.ssubset_iff_of_subset ?_ |>.mpr ⟨⟨.local m, name, ns⟩, ?_, ?_⟩
        · exact Finset.sdiff_subset_sdiff (Finset.Subset.refl _) (Finset.subset_insert _ _)
        · exact Finset.mem_sdiff.mpr ⟨hq, fun h => hmem (List.mem_toFinset.mp h)⟩
        · exact fun h => (Finset.mem_sdiff.mp h).2 (Finset.mem_insert_self _ _)
      · exact lookupInModule_leaf fun m hm' he => hm ⟨m, hm', he⟩

include G in
/-- A path resolves in a finite module graph. -/
theorem resolvePath_ends (phase : ResolvePhase) (module : ModSymbol) (path : Path)
    (ns : Namespace) : ∃ n, Ends (db.resolvePath phase n module path ns) := by
  have hends : ∀ m name ns, name ∈ G.names (pathNames path) →
      Ends (db.resolveNameFromModule phase ((G.queries (pathNames path)).card + 1) [] m name ns) :=
    fun m name ns hn => resolveNameFromModule_ends phase hn
      (Nat.lt_succ_of_le (Finset.card_le_card Finset.sdiff_subset))
  exact ⟨_, resolvePathInModule_ends hends fun n hn => mem_names_of_asked hn⟩

end Finite

end Sage.Resolve
