import Sage.Resolve.Finite

/-!
# Resolve — the scoping equations

What a name denotes in a module, given what every name denotes in every module: the items and
named imports that bind it, and where there are none what the glob imports supply; an import
denotes what the last segment of its path denotes in what the rest of it denotes.

* `binding` — the equations.
* `pathMeaning_child` — the last segment of a path.
* `lookupByPhase_eq` — one query over lookups that all end evaluates the equations.
-/

namespace Sage.Resolve

open Loop

/-- The path one segment down. -/
def pathChild : Path → Name → Path
  | .relative first rest, name => .relative first (rest ++ [name])
  | .anchored anchor segments, name => .anchored anchor (segments ++ [name])

namespace SymbolDb

variable (db : SymbolDb) (found : ModSymbol → Name → Namespace → List Symbol)

/-- A name inside a container. -/
def member (symbol : Symbol) (name : Name) (ns : Namespace) : List Symbol :=
  match symbol.module with
  | some (.ext module) => (db.namedChildren module name ns).map SymExt.symbol
  | some (.local module) => found (.local module) name ns
  | none => (db.children symbol).filter fun item => item.name db = some (name, ns)

/-- A name through a glob import of these. -/
def globMember (name : Name) (ns : Namespace) (symbol : Symbol) : List Symbol :=
  match symbol.module with
  | some module => found module name ns
  | none => if symbol.isEnum then db.member found symbol name ns else []

def stdPrelude (name : Name) (ns : Namespace) : List Symbol :=
  match (db.lookupExternPrelude "std" .type).bind Symbol.module with
  | none => []
  | some stdModule =>
      (((found stdModule "prelude" .type).filterMap Symbol.module).flatMap fun module =>
        found module db.preludeModule .type).flatMap (db.globMember found name ns)

/-- The first segment of a path. -/
def firstSegment (module : ModSymbol) (name : Name) (ns : Namespace) : List Symbol :=
  if found module name ns ≠ [] then found module name ns
  else
    match db.lookupExternPrelude name ns with
    | some symbol => [symbol]
    | none =>
        if db.stdPrelude found name ns ≠ [] then db.stdPrelude found name ns
        else (db.lookupLangPrelude name ns).toList

def segments (ns : Namespace) : List Name → List Symbol → List Symbol
  | [], _ => []
  | [final], symbols => symbols.flatMap fun symbol => db.member found symbol final ns
  | next :: rest, symbols =>
      symbols.flatMap fun symbol => segments ns rest (db.member found symbol next .type)

/-- What a path denotes from a module. -/
def pathMeaning (module : ModSymbol) (path : Path) (ns : Namespace) : List Symbol :=
  match path with
  | .relative first [] => db.firstSegment found module first ns
  | .relative first rest => db.segments found ns rest (db.firstSegment found module first .type)
  | .anchored anchor [] => if ns ≠ .type then [] else (db.resolveAnchor module anchor).map .mod
  | .anchored anchor rest =>
      db.segments found ns rest ((db.resolveAnchor module anchor).map .mod)

/-- What an import supplies. -/
def importMeaning (filter : LookupFilter) (module : ModSymbol) (name : Name) (ns : Namespace)
    (imported : UseImport) : List Symbol :=
  match imported.kind with
  | .named binding =>
      if binding = name ∧ filter.named = .all then
        db.pathMeaning found module imported.path ns
      else []
  | .glob =>
      if filter.globs then
        (db.pathMeaning found module imported.path .type).flatMap (db.globMember found name ns)
      else []
  | .unnamed => []

/-- What an item supplies. -/
def itemMeaning (filter : LookupFilter) (module : ModSymbol) (name : Name) (ns : Namespace)
    (item : Symbol) : List Symbol :=
  match item with
  | .use id =>
      if db.useIsActive id then []
      else (db.imports id).flatMap (db.importMeaning found filter module name ns)
  | item => if filter.named = .all ∧ item.name db = some (name, ns) then [item] else []

/-- What a module supplies. -/
def supplied (filter : LookupFilter) (module : ModSymbol) (name : Name) (ns : Namespace) :
    List Symbol :=
  match module, ns with
  | .ext external, .macros kind =>
      if filter.named = .all then
        (db.namedChildren external name (.macros kind)).map SymExt.symbol
      else []
  | module, ns => (db.expandedModuleItems module).flatMap (db.itemMeaning found filter module name ns)

/-- Items and named imports bind a name before globs do; macro expansion takes them together. -/
def binding (phase : ResolvePhase) (module : ModSymbol) (name : Name) (ns : Namespace) :
    List Symbol :=
  match phase with
  | .macroExpansion => (db.supplied found ⟨.all, true⟩ module name ns).eraseDups
  | .normal =>
      if db.supplied found ⟨.all, false⟩ module name ns ≠ [] then
        (db.supplied found ⟨.all, false⟩ module name ns).eraseDups
      else (db.supplied found ⟨.none, true⟩ module name ns).eraseDups

end SymbolDb

/-! ### Paths -/

section Paths

variable {db : SymbolDb} {found : ModSymbol → Name → Namespace → List Symbol}

theorem segments_child (ns : Namespace) (name : Name) (rest : List Name) :
    ∀ next symbols, db.segments found ns (next :: rest ++ [name]) symbols =
      (db.segments found .type (next :: rest) symbols).flatMap
        fun symbol => db.member found symbol name ns := by
  induction rest with
  | nil => intro next symbols; simp [SymbolDb.segments, List.flatMap_assoc]
  | cons second rest ih =>
      intro next symbols
      simp only [List.cons_append, SymbolDb.segments, List.flatMap_assoc]
      exact congrArg (List.flatMap · symbols) (funext fun symbol => ih second _)

/-- The last segment of a path is looked up in what the rest denotes. -/
theorem pathMeaning_child (module : ModSymbol) (path : Path) (name : Name) (ns : Namespace) :
    db.pathMeaning found module (pathChild path name) ns =
      (db.pathMeaning found module path .type).flatMap
        fun symbol => db.member found symbol name ns := by
  cases path with
  | relative first rest =>
      cases rest with
      | nil => simp [pathChild, SymbolDb.pathMeaning, SymbolDb.segments]
      | cons next rest =>
          simp only [pathChild, SymbolDb.pathMeaning, List.cons_append]
          exact segments_child ns name rest next _
  | anchored anchor rest =>
      cases rest with
      | nil => simp [pathChild, SymbolDb.pathMeaning, SymbolDb.segments]
      | cons next rest =>
          simp only [pathChild, SymbolDb.pathMeaning, List.cons_append]
          exact segments_child ns name rest next _

end Paths

/-! ### One query -/

section Eq

variable {db : SymbolDb} (found : ModSymbol → Name → Namespace → List Symbol)
  (module : ModSymbol) (name : Name) (ns : Namespace)

theorem resolveNameIn_eq (symbol : Symbol) :
    db.resolveNameIn (fun m n s => some (found m n s)) symbol name ns =
      some (db.member found symbol name ns) := by
  rw [SymbolDb.resolveNameIn, SymbolDb.member]
  rcases symbol.module with _ | _ | _ <;> rfl

theorem resolveGlob_eq (globFrom : List Symbol) :
    db.resolveGlob (fun m n s => some (found m n s)) globFrom name ns =
      some (globFrom.flatMap (db.globMember found name ns)) := by
  refine flatMapM_eq fun symbol _ => ?_
  rw [SymbolDb.globMember]
  cases symbol.module with
  | some module => rfl
  | none =>
      dsimp only
      split
      · exact resolveNameIn_eq found name ns symbol
      · rfl

theorem lookupStdPrelude_eq :
    db.lookupStdPrelude (fun m n s => some (found m n s)) name ns =
      some (db.stdPrelude found name ns) := by
  rw [SymbolDb.lookupStdPrelude, SymbolDb.stdPrelude]
  cases (db.lookupExternPrelude "std" .type).bind Symbol.module with
  | none => rfl
  | some stdModule =>
    have heditions := flatMapM_eq (f := fun m => some (found m db.preludeModule .type))
      (l := (found stdModule "prelude" .type).filterMap Symbol.module) fun _ _ => rfl
    simp only [heditions, Option.bind_eq_bind, Option.bind_some]
    exact resolveGlob_eq found name ns _

theorem flexiblyResolve_eq :
    db.flexiblyResolve (fun m n s => some (found m n s)) module name ns =
      some (db.firstSegment found module name ns) := by
  simp only [SymbolDb.flexiblyResolve, SymbolDb.firstSegment, lookupStdPrelude_eq,
    Option.bind_eq_bind, Option.bind_some]
  split
  · rfl
  cases db.lookupExternPrelude name ns with
  | some symbol => rfl
  | none =>
      dsimp only
      split <;> rfl

theorem resolveRemainingSegments_eq (rest : List Name) : ∀ symbols,
    db.resolveRemainingSegments (fun m n s => some (found m n s)) ns rest symbols =
      some (db.segments found ns rest symbols) := by
  induction rest with
  | nil => exact fun symbols => rfl
  | cons next rest ih =>
      intro symbols
      cases rest with
      | nil => exact flatMapM_eq fun symbol _ => resolveNameIn_eq found next ns symbol
      | cons second rest =>
          refine flatMapM_eq fun symbol _ => ?_
          rw [resolveNameIn_eq found next .type symbol]
          exact ih _

theorem resolvePathInModule_eq (path : Path) :
    db.resolvePathInModule (fun m n s => some (found m n s)) module path ns =
      some (db.pathMeaning found module path ns) := by
  cases path with
  | relative first rest =>
      cases rest with
      | nil => exact flexiblyResolve_eq found _ _ _
      | cons next rest =>
          simp only [SymbolDb.resolvePathInModule, SymbolDb.pathMeaning, flexiblyResolve_eq]
          exact resolveRemainingSegments_eq found ns _ _
  | anchored anchor rest =>
      cases rest with
      | nil =>
          simp only [SymbolDb.resolvePathInModule, SymbolDb.pathMeaning]
          split <;> rfl
      | cons next rest => exact resolveRemainingSegments_eq found ns _ _

theorem lookupImport_eq (filter : LookupFilter) (imported : UseImport) :
    db.lookupImport (fun m n s => some (found m n s)) filter module name ns imported =
      some (db.importMeaning found filter module name ns imported) := by
  simp only [SymbolDb.lookupImport, SymbolDb.importMeaning, SymbolDb.resolveUse,
    resolvePathInModule_eq]
  cases imported.kind with
  | named binding =>
      dsimp only
      split <;> rfl
  | glob =>
      dsimp only
      split
      · exact resolveGlob_eq found name ns _
      · rfl
  | unnamed => rfl

theorem lookupItem_eq (filter : LookupFilter) {item : Symbol} (hr : item.isRepresented = true)
    (he : ∀ c i, item ≠ .ext ⟨c, i, .use⟩) :
    db.lookupItem (fun m n s => some (found m n s)) filter module name ns item =
      some (db.itemMeaning found filter module name ns item) := by
  cases item with
  | use id =>
      rw [SymbolDb.lookupItem, SymbolDb.itemMeaning]
      split
      · rfl
      · exact flatMapM_eq fun imported _ => lookupImport_eq found module name ns filter imported
  | _ =>
      rw [SymbolDb.lookupItem, SymbolDb.itemMeaning]
      · rw [if_neg (by rw [hr]; exact Bool.noConfusion)]
        split <;> rfl
      · exact fun _ => Symbol.noConfusion
      · exact fun _ => Symbol.noConfusion
      · exact he

variable (G : Finite db)
include G

theorem lookupInModule_eq (filter : LookupFilter) :
    db.lookupInModule (fun m n s => some (found m n s)) filter module name ns =
      some (db.supplied found filter module name ns) := by
  have hitems : ∀ module, flatMapM (db.lookupItem (fun m n s => some (found m n s)) filter module
      name ns) (db.expandedModuleItems module) =
      some ((db.expandedModuleItems module).flatMap (db.itemMeaning found filter module name ns)) :=
    fun module => flatMapM_eq fun item hitem =>
      lookupItem_eq found module name ns filter (G.implemented hitem).1 (G.implemented hitem).2
  cases module with
  | «local» m => exact hitems (.local m)
  | ext e =>
      cases ns with
      | macros kind =>
          simp only [SymbolDb.lookupInModule, SymbolDb.supplied]
          split <;> rfl
      | _ => exact hitems (.ext e)

/-- A query over lookups that all end evaluates the equations. -/
theorem lookupByPhase_eq (phase : ResolvePhase) :
    (db.lookupByPhase (fun m n s => some (found m n s)) phase module name ns).map List.eraseDups =
      some (db.binding found phase module name ns) := by
  cases phase with
  | macroExpansion =>
      rw [SymbolDb.lookupByPhase, lookupInModule_eq found module name ns G]
      rfl
  | normal =>
      simp only [SymbolDb.lookupByPhase, lookupInModule_eq found module name ns G,
        SymbolDb.binding, Option.bind_eq_bind, Option.bind_some]
      split <;> rfl

end Eq

end Sage.Resolve
