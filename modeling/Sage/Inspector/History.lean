import Sage.Inspector.Workspace
import Sage.Inspector.Retention

/-!
# Inspector — answers and history

The provider keeps the directory of an earlier revision for product requests.  Its answers are
those of a fresh provider over the same sources, except that a product request right after an edit
does not find what the kept directory does not list.

* `CachedDirectory` — what a run knows of the kept directory.
* `Served` — the requests that the kept directory serves.
* `answer_eq` — a served request is answered as a fresh provider answers it.
-/

namespace Sage.Inspector

/-- The requests that read sources. -/
inductive Request where
  | symbols
  | symbol (path : SymbolPath)
  | product (symbol : SymbolPath) (product : ProductId)

/-- What a request reads, without revisions, runs and handles. -/
inductive Content where
  | symbols (index : SymbolIndex)
  | symbol (selected : SelectedSymbol)
  | product (page : ProductPage)

/-- The directory has a summary for a path. -/
def SymbolDirectory.Lists (d : SymbolDirectory) (path : SymbolPath) : Prop :=
  ∃ summary ∈ d.index.symbols, summary.path = path

namespace LiveInspectionProvider

variable {σ : Type} [Workspace σ] [FxHasher]

open Workspace

def answer (p : LiveInspectionProvider σ) : Request → Except ApiError Content
  | .symbols => p.symbols.1.map fun a => .symbols a.value
  | .symbol path => (p.symbol path).1.map fun a => .symbol a.value
  | .product symbol product => (p.product symbol product).1.map fun a => .product a.value.erased

/-- The directory that a walk over the current sources gives. -/
def currentDirectory (p : LiveInspectionProvider σ) : SymbolDirectory :=
  buildSymbolDirectory p.host.texts p.host.storage

/-- The kept directory is the current one, or it is stale and of other sources of the crate. -/
def CachedDirectory (p : LiveInspectionProvider σ) : Prop :=
  ∀ d, p.directory = some d →
    (p.directoryStale = false → d = p.currentDirectory) ∧
      ∃ (texts : SourceTexts) (storage : σ), target storage = target p.host.storage ∧
        d = buildSymbolDirectory texts storage

theorem CachedDirectory.new (host : SageHost σ) :
    CachedDirectory (LiveInspectionProvider.new host) := by
  intro d hd
  cases hd

/-! ### The kept directory in a run -/

/-- Nothing changes that an answer is read from. -/
structure SameView (p p' : LiveInspectionProvider σ) : Prop where
  texts : p'.host.texts = p.host.texts
  sources : SameSources p.host.texts p'.host.storage p.host.storage
  debug : debug p'.host.storage = debug p.host.storage
  directoryStale : p'.directoryStale = p.directoryStale

namespace SameView

variable {p p' p'' : LiveInspectionProvider σ}

theorem refl (p : LiveInspectionProvider σ) : SameView p p := ⟨rfl, .refl _, rfl, rfl⟩

theorem evaluate {α : Type} (p : LiveInspectionProvider σ) (e : Evaluation)
    (f : SourceTexts → σ → α) : SameView p { p with host := (p.host.withContext e f).2 } :=
  ⟨rfl, .evaluate_left _ _, debug_evaluate _ _, rfl⟩

theorem currentDirectory_eq (h : SameView p p') : p'.currentDirectory = p.currentDirectory := by
  rw [currentDirectory, h.texts, h.sources.buildSymbolDirectory_eq, currentDirectory]

theorem cachedDirectory (h : SameView p p') (hdirectory : p'.directory = p.directory)
    (hp : p.CachedDirectory) : p'.CachedDirectory := by
  intro d hd
  rw [hdirectory] at hd
  obtain ⟨hcurrent, texts, storage, htarget, hbuilt⟩ := hp d hd
  refine ⟨fun hstale => ?_, texts, storage, htarget.trans h.sources.target.symm, hbuilt⟩
  rw [h.directoryStale] at hstale
  rw [h.currentDirectory_eq]
  exact hcurrent hstale

end SameView

variable {p : LiveInspectionProvider σ}

/-- A provider that keeps the current directory. -/
theorem cachedDirectory_of_current
    (h : ∀ d, p.directory = some d → d = p.currentDirectory) : p.CachedDirectory :=
  fun d hd => ⟨fun _ => h d hd, p.host.texts, p.host.storage, rfl, h d hd⟩

/-- The kept directory, or a walk over the current sources. -/
theorem directory'_cases (hp : p.CachedDirectory) :
    SameView p p.directory'.2 ∧ p.directory'.2.directory = some p.directory'.1 ∧
      p.directory'.2.CachedDirectory ∧
      (p.directory = some p.directory'.1 ∨
        p.directory = none ∧ p.directory'.1 = p.currentDirectory) := by
  cases hd : p.directory with
  | some d =>
      have heq : p.directory' = (d, p) := by rw [directory', hd]
      rw [heq]
      exact ⟨.refl p, hd, hp, .inl rfl⟩
  | none =>
      have heq : p.directory' = (p.currentDirectory,
          { p with
            host := (p.host.withContext .directory buildSymbolDirectory).2
            directory := some p.currentDirectory }) := by
        rw [directory', hd]
        rfl
      have hview := SameView.evaluate p .directory buildSymbolDirectory
      rw [heq]
      refine ⟨⟨hview.texts, hview.sources, hview.debug, rfl⟩, rfl,
        cachedDirectory_of_current ?_, .inr ⟨rfl, rfl⟩⟩
      rintro d hd
      exact (Option.some.inj hd).symm.trans hview.currentDirectory_eq.symm

theorem record_cachedDirectory {α : Type} (hp : p.CachedDirectory) (request : RunRequest)
    (phase : TracePhase) (operation : String) (value : α) :
    (p.record request phase operation value).2.CachedDirectory :=
  (show SameView p (p.record request phase operation value).2 from
    ⟨rfl, .refl _, rfl, rfl⟩).cachedDirectory rfl hp

/-! ### The operations -/

theorem symbols_cachedDirectory (p : LiveInspectionProvider σ) :
    p.symbols.2.CachedDirectory := by
  have hview := SameView.evaluate p .directory buildSymbolDirectory
  refine record_cachedDirectory (cachedDirectory_of_current ?_) _ _ _ p.currentDirectory.index
  rintro d hd
  exact (Option.some.inj hd).symm.trans hview.currentDirectory_eq.symm

theorem answer_symbols (p : LiveInspectionProvider σ) :
    p.answer .symbols = .ok (.symbols p.currentDirectory.index) := rfl

/-- A selection drops a stale directory, so it reads the current one. -/
theorem symbol_answer (hp : p.CachedDirectory) (path : SymbolPath) :
    (p.symbol path).2.CachedDirectory ∧ p.answer (.symbol path) =
      match selectedSymbol p.host.texts p.host.storage p.currentDirectory path with
      | none => .error ⟨"symbol-not-found", "unknown symbol path `" ++ path ++ "`"⟩
      | some selected => .ok (.symbol selected) := by
  set q := if p.directoryStale then { p with directory := none } else p with hq
  have hqp : q.host = p.host ∧ q.CachedDirectory ∧
      ∀ d, q.directory = some d → d = p.currentDirectory := by
    rw [hq]
    cases hstale : p.directoryStale with
    | true => exact ⟨rfl, fun _ => nofun, fun _ => nofun⟩
    | false => exact ⟨rfl, hp, fun d hd => (hp d hd).1 hstale⟩
  obtain ⟨hhost, hcached, hcurrent⟩ := hqp
  obtain ⟨hview, hkept, -, hd⟩ := directory'_cases hcached
  have hdirectory : q.directory'.1 = p.currentDirectory := by
    rcases hd with hd | ⟨-, hd⟩
    · exact hcurrent _ hd
    · rw [hd, currentDirectory, hhost, currentDirectory]
  set r : LiveInspectionProvider σ := { q.directory'.2 with directoryStale := false } with hr
  set chosen := r.host.withContext (.selection path) fun texts storage =>
    selectedSymbol texts storage q.directory'.1 path with hchosen
  have hselected : chosen.1 =
      selectedSymbol p.host.texts p.host.storage p.currentDirectory path := by
    rw [hchosen, hdirectory, ← hhost, ← hview.texts]
    exact selectedSymbol_eq _ _ _ _ _
  have hcachedAfter : { r with host := chosen.2 }.CachedDirectory := by
    refine cachedDirectory_of_current ?_
    intro d hd
    have hafter := SameView.evaluate q.directory'.2 (.selection path) fun texts storage =>
      selectedSymbol texts storage q.directory'.1 path
    rw [← Option.some.inj (hkept.symm.trans hd), hdirectory]
    refine (hafter.currentDirectory_eq.trans (hview.currentDirectory_eq.trans ?_)).symm
    rw [currentDirectory, hhost, currentDirectory]
  have hsymbol := symbol_eq hq hr hchosen
  rw [answer, hsymbol, ← hselected]
  cases chosen.1 with
  | none => exact ⟨hcachedAfter, rfl⟩
  | some selected => exact ⟨record_cachedDirectory hcachedAfter _ _ _ selected, rfl⟩

/-- The directory as a product request reads it. -/
def keptDirectory (p : LiveInspectionProvider σ) (d : SymbolDirectory) : SymbolDirectory :=
  if p.directoryStale then { d with references := PartialMap.empty } else d

/-- A product request reads the kept directory, without its references if it is stale. -/
theorem product_answer (hp : p.CachedDirectory) (path : SymbolPath) (product : ProductId) :
    (p.product path product).2.CachedDirectory ∧
      ∃ (d : SymbolDirectory) (storage : σ) (continuationPrefix : String),
        (p.directory = some d ∨ p.directory = none ∧ d = p.currentDirectory) ∧
        SameSources p.host.texts storage p.host.storage ∧
        debug storage = debug p.host.storage ∧
        p.answer (.product path product) =
          match (identityProduct p.host.texts storage
              (p.keptDirectory d) path product continuationPrefix).map (·.page.erased) with
          | none => .error ⟨"product-not-found",
              "product `" ++ product ++ "` is not listed for `" ++ path ++ "`"⟩
          | some page => .ok (.product page) := by
  set q : LiveInspectionProvider σ := { p with nextContinuation := p.nextContinuation + 1 } with hq
  have hcached : q.CachedDirectory := hp
  obtain ⟨hview, hkept, hr, hd⟩ := directory'_cases hcached
  set r := q.directory'.2 with hrdef
  set generated := r.host.withContext (.product path product) fun texts storage =>
    identityProduct texts storage
      (if r.directoryStale then { q.directory'.1 with references := PartialMap.empty }
        else q.directory'.1) path product
      (q.revisionId ++ "_product_" ++ q.nextContinuation.repr) with hgenerated
  have hafter : { r with host := generated.2 }.CachedDirectory :=
    (SameView.evaluate r (.product path product) _).cachedDirectory rfl hr
  have hproduct := product_eq hq hrdef hgenerated
  have hvalue : generated.1 = identityProduct p.host.texts r.host.storage
      (p.keptDirectory q.directory'.1) path product
      (q.revisionId ++ "_product_" ++ q.nextContinuation.repr) := by
    rw [hgenerated, keptDirectory, ← show p.directoryStale = r.directoryStale from
      hview.directoryStale.symm, ← show r.host.texts = p.host.texts from hview.texts]
    rfl
  refine ⟨?_, q.directory'.1, r.host.storage,
    q.revisionId ++ "_product_" ++ q.nextContinuation.repr, hd, hview.sources, hview.debug, ?_⟩
  · rw [hproduct]
    cases generated.1 with
    | none => exact hafter
    | some g =>
        exact (show SameView { r with host := generated.2 }
          ({ r with host := generated.2 }.keepProduct path product g).2 from
            ⟨rfl, .refl _, rfl, rfl⟩).cachedDirectory rfl hafter
  · rw [answer, hproduct, ← hvalue]
    cases generated.1 <;> rfl

omit [Workspace σ] [FxHasher] in
theorem pushRevision_view (p : LiveInspectionProvider σ) (revision : RetainedRevision) :
    (p.pushRevision revision).host = p.host ∧
      (p.pushRevision revision).directory = p.directory ∧
      (p.pushRevision revision).directoryStale = p.directoryStale := by
  rcases pushRevision_cases p revision with ⟨-, heq⟩ | ⟨expired, rest, -, -, heq⟩ <;> rw [heq]
  · exact ⟨rfl, rfl, rfl⟩
  · exact ⟨rfl, rfl, rfl⟩

theorem target_writeUpdates (updates : List FileUpdate) : ∀ host : SageHost σ,
    target (writeUpdates host updates).1.storage = target host.storage := by
  induction updates with
  | nil => exact fun host => rfl
  | cons u updates ih =>
      intro host
      rw [writeUpdates]
      split
      · exact ih host
      · split
        · exact ih host
        · exact (ih (host.setSourceText u.path u.text)).trans (target_setText _ _ _)

/-- An edit makes the kept directory stale. -/
theorem applyUpdates_cachedDirectory (hp : p.CachedDirectory) (updates : List FileUpdate) :
    (p.applyUpdates updates).2.CachedDirectory := by
  rw [applyUpdates]
  split
  · exact hp
  · set written := writeUpdates p.host
      (updates.map fun u : FileUpdate => { u with path := p.host.normalizeSourcePath u.path })
      with hwritten
    have htarget : target written.1.storage = target p.host.storage := target_writeUpdates _ _
    rcases writeUpdates_cases (updates.map fun u : FileUpdate =>
      { u with path := p.host.normalizeSourcePath u.path }) p.host with ⟨hnone, hsame⟩ | ⟨hsome, -⟩
    · rw [← hwritten] at hnone hsame
      simp only [hnone, List.isEmpty_nil, if_true, hsame]
      exact hp
    · rw [← hwritten] at hsome
      simp only [List.isEmpty_eq_false_iff.mpr hsome, Bool.false_eq_true, if_false]
      intro d hd
      obtain ⟨hhost, hdirectory, hstale⟩ := pushRevision_view (σ := σ)
        { p with
          host := written.1, directoryStale := true, nextEditBatch := p.nextEditBatch + 1 }
        ⟨revisionName p.databaseGeneration written.1.salsaRevision,
          .inputEdit ("edit-" ++ (p.nextEditBatch + 1).repr), written.2, []⟩
      obtain ⟨-, texts, storage, hbuilt, heq⟩ := hp d (hdirectory.symm.trans hd)
      refine ⟨fun hfresh => ?_, texts, storage, ?_, heq⟩
      · exact absurd (hstale.symm.trans hfresh) (by simp)
      · exact hbuilt.trans (htarget.symm.trans (congrArg (fun h => target h.storage) hhost).symm)

theorem reloadWorkspace_cachedDirectory (hp : p.CachedDirectory) (reason : Issue)
    (replacement : Except String (SageHost σ)) :
    (p.reloadWorkspace reason replacement).2.CachedDirectory := by
  cases replacement with
  | error message => exact hp
  | ok host =>
      intro d hd
      rw [reloadWorkspace] at hd
      have hnone := (pushRevision_view (σ := σ) _ _).2.1.symm.trans hd
      exact absurd hnone (by simp)

theorem perform_cachedDirectory (hp : p.CachedDirectory) (operation : Operation σ) :
    (p.perform operation).2.CachedDirectory := by
  cases operation with
  | symbols => exact p.symbols_cachedDirectory
  | symbol path => exact (symbol_answer hp path).1
  | product symbol product => exact (product_answer hp symbol product).1
  | applyUpdates updates => exact applyUpdates_cachedDirectory hp updates
  | reloadWorkspace reason replacement => exact reloadWorkspace_cachedDirectory hp reason replacement
  | revision => exact hp
  | session => exact hp
  | revisions => exact hp
  | continuation handle =>
      simp only [perform, continuation]
      cases p.continuations handle <;> exact hp
  | run handle =>
      simp only [perform, run]
      cases p.runs handle <;> exact hp
  | revisionDetail revision =>
      simp only [perform, revisionDetail]
      cases p.revisions.find? (·.revisionId = revision) <;> exact hp
  | compare source target symbol product =>
      simp only [perform, compare]
      cases p.products (source, symbol, product) <;>
        cases p.products (target, symbol, product) <;> exact hp

theorem Run.cachedDirectory {host : SageHost σ} {pages : List (Provided ProductPage)}
    (h : Run host pages p) : p.CachedDirectory := by
  induction h with
  | new => exact .new _
  | step _ operation ih => exact perform_cachedDirectory ih operation

/-! ### Served requests -/

/-- A product request that the kept directory serves.  Where the directory is stale, it lists the
path if the current one does, and references are found through fewer than 256 owners.  A symbol
without a reference is printed by both hosts alike. -/
structure ServesProduct (p : LiveInspectionProvider σ) (fresh : SageHost σ) (path : SymbolPath)
    (product : ProductId) : Prop where
  listed : p.directoryStale = true → ∀ d, p.directory = some d →
    p.currentDirectory.Lists path → d.Lists path
  shallow : p.directoryStale = true → (crateOf p.host.texts p.host.storage).Shallow
  printed : ∀ value, shownValue p.host.texts p.host.storage path product = some value →
    ∀ key ∈ value.symbols,
      resolver p.host.texts p.host.storage (shownReferences p.currentDirectory path) key = none →
        debug p.host.storage key = debug fresh.storage key

def Serves (p : LiveInspectionProvider σ) (fresh : SageHost σ) : Request → Prop
  | .symbols => True
  | .symbol _ => True
  | .product path product => p.ServesProduct fresh path product

theorem listsAlike_self (texts : SourceTexts) (s : σ) (d : SymbolDirectory) (path : SymbolPath) :
    ListsAlike texts s d d path := by
  rw [ListsAlike]
  cases d.index.symbols.find? (·.path = path) with
  | none => trivial
  | some summary => rfl

/-- The directories of two revisions of a crate show equal paths alike. -/
theorem displayPath_of_directory {texts texts' : SourceTexts} {s s' : σ}
    (htarget : target s = target s') {a b : SymbolSummary}
    (ha : a ∈ (buildSymbolDirectory texts s).index.symbols)
    (hb : b ∈ (buildSymbolDirectory texts' s').index.symbols) (hpath : a.path = b.path) :
    a.displayPath = b.displayPath := by
  have hname : (crateOf texts s).targetName = (crateOf texts' s').targetName := by
    rw [crateOf, targetName_crate, crateOf, targetName_crate, htarget]
  have hroot : (crateOf texts s).rootPath = (crateOf texts' s').rootPath := by
    rw [SymbolTable.rootPath, SymbolTable.rootPath, hname]
  rcases List.mem_cons.mp ha with rfl | ha <;> rcases List.mem_cons.mp hb with rfl | hb
  · exact hname
  · -- nothing below the root has the path of the root
    obtain ⟨entry, hentry, rfl⟩ := List.mem_map.mp hb
    refine absurd ?_ (show (crateOf texts' s').rootPath ∉
      ((crateOf texts' s').indexedSymbols (ids s')).map (·.2.path) from
        LocalCrate.notMem_walkSymbols _ _ _)
    exact List.mem_map.mpr ⟨entry, hentry, hpath.symm.trans hroot⟩
  · obtain ⟨entry, hentry, rfl⟩ := List.mem_map.mp ha
    refine absurd ?_ (show (crateOf texts s).rootPath ∉
      ((crateOf texts s).indexedSymbols (ids s)).map (·.2.path) from
        LocalCrate.notMem_walkSymbols _ _ _)
    exact List.mem_map.mpr ⟨entry, hentry, hpath.trans hroot.symm⟩
  · obtain ⟨entry, hentry, rfl⟩ := List.mem_map.mp ha
    obtain ⟨entry', hentry', rfl⟩ := List.mem_map.mp hb
    exact LocalCrate.displayPath_eq hname hentry hentry' hpath

/-- A path that resolves is listed. -/
theorem lists_of_resolveLocalSymbol {path : SymbolPath} {s : Symbol}
    (h : Queries.resolveLocalSymbol p.host.texts p.host.storage path = some s) :
    p.currentDirectory.Lists path := by
  obtain ⟨summary, hmem, hpath⟩ :=
    LocalCrate.hasPath_iff.mpr (LocalCrate.resolveLocalSymbol_eq_some.mp h)
  exact ⟨summary, List.mem_cons_of_mem _ (List.mem_map.mpr ⟨_, hmem, rfl⟩), hpath⟩

/-- A directory says the same of a path as the current one, which lists it only if it does too. -/
theorem listsAlike_of_listed {d : SymbolDirectory} {path : SymbolPath}
    (hd : p.directory = some d ∨ p.directory = none ∧ d = p.currentDirectory)
    (hcached : p.CachedDirectory)
    (hlisted : p.directoryStale = true → ∀ d, p.directory = some d →
      p.currentDirectory.Lists path → d.Lists path) :
    ListsAlike p.host.texts p.host.storage d p.currentDirectory path := by
  rcases hd with hd | ⟨-, rfl⟩
  · obtain ⟨hfresh, texts, storage, htarget, hbuilt⟩ := hcached d hd
    cases hstale : p.directoryStale with
    | false =>
        rw [hfresh hstale]
        exact listsAlike_self _ _ _ _
    | true =>
        have hlists := hlisted hstale d hd
        rw [ListsAlike]
        cases hfind : d.index.symbols.find? (·.path = path) with
        | none =>
            cases hfind' : p.currentDirectory.index.symbols.find? (·.path = path) with
            | none => trivial
            | some summary' =>
                obtain ⟨summary, hmem, hpath⟩ := hlists ⟨summary', List.mem_of_find?_eq_some hfind',
                  by simpa using List.find?_some hfind'⟩
                exact absurd hpath (by simpa using List.find?_eq_none.mp hfind summary hmem)
        | some summary =>
            cases hfind' : p.currentDirectory.index.symbols.find? (·.path = path) with
            | none =>
                cases hresolve : Queries.resolveLocalSymbol p.host.texts p.host.storage path with
                | none => rfl
                | some s =>
                    obtain ⟨summary', hmem, hpath⟩ := lists_of_resolveLocalSymbol hresolve
                    exact absurd hpath (by simpa using List.find?_eq_none.mp hfind' summary' hmem)
            | some summary' =>
                have hleft : summary.path = path := by simpa using List.find?_some hfind
                have hright : summary'.path = path := by simpa using List.find?_some hfind'
                rw [hbuilt] at hfind
                exact displayPath_of_directory htarget (List.mem_of_find?_eq_some hfind)
                  (List.mem_of_find?_eq_some hfind') (hleft.trans hright.symm)
  · exact listsAlike_self _ _ _ _

omit [Workspace σ] [FxHasher] in
/-- What a directory has for a symbol comes from an entry for it. -/
theorem exists_of_references {symbols : List (Symbol × SymbolSummary)} {key : Symbol}
    {reference : SymbolReference} : ∀ {m : PartialMap Symbol SymbolReference},
    symbols.foldl (fun m s => m.insert s.1 s.2.reference) m key = some reference →
      m key = some reference ∨ ∃ entry ∈ symbols, entry.1 = key ∧ entry.2.reference = reference := by
  induction symbols with
  | nil => exact fun h => .inl h
  | cons entry symbols ih =>
      intro m h
      rcases ih h with h | ⟨later, hmem, heq⟩
      · rcases PartialMap.insert_eq_some h with ⟨rfl, rfl⟩ | ⟨-, h⟩
        · exact .inr ⟨entry, List.mem_cons_self, rfl, rfl⟩
        · exact .inl h
      · exact .inr ⟨later, List.mem_cons_of_mem _ hmem, heq⟩

/-- In a shallow crate the current directory has the references that are found without it. -/
theorem findReference_of_currentDirectory
    (hshallow : (crateOf p.host.texts p.host.storage).Shallow) {key : Symbol}
    {reference : SymbolReference} (hkey : key.family ≠ "external-symbol")
    (h : p.currentDirectory.references key = some reference) :
    Queries.findReference p.host.texts p.host.storage key = some reference := by
  rcases exists_of_references h with hnone | ⟨entry, hentry, rfl, rfl⟩
  · cases hnone
  · rw [show Queries.findReference p.host.texts p.host.storage entry.1 =
      (crateOf p.host.texts p.host.storage).findLocalReference (ids p.host.storage) entry.1 from
        if_neg hkey]
    exact LocalCrate.findLocalReference_of_mem hshallow hentry

omit [Workspace σ] [FxHasher] in
theorem keptDirectory_index (d : SymbolDirectory) : (p.keptDirectory d).index = d.index := by
  rw [keptDirectory]
  split <;> rfl

theorem listsAlike_keptDirectory {d d' : SymbolDirectory} {path : SymbolPath} {storage : σ}
    (h : ListsAlike p.host.texts p.host.storage d d' path)
    (hs : SameSources p.host.texts storage p.host.storage) :
    ListsAlike p.host.texts storage (p.keptDirectory d) d' path := by
  rw [ListsAlike, keptDirectory_index, hs.resolveLocalSymbol_eq]
  exact h

/-- Looking a symbol up in the kept directory gives what the current one has. -/
theorem resolver_keptDirectory {d : SymbolDirectory} {path : SymbolPath} {storage storage' : σ}
    (hd : p.directory = some d ∨ p.directory = none ∧ d = p.currentDirectory)
    (hcached : p.CachedDirectory)
    (hshallow : p.directoryStale = true → (crateOf p.host.texts p.host.storage).Shallow)
    (hs : SameSources p.host.texts storage p.host.storage)
    (hboth : SameSources p.host.texts storage storage') (key : Symbol) :
    resolver p.host.texts storage (shownReferences (p.keptDirectory d) path) key =
      resolver p.host.texts storage' (shownReferences p.currentDirectory path) key := by
  rw [resolver, resolver, hboth.findReference_eq]
  by_cases hfamily : key.family = "external-symbol"
  · rw [if_pos hfamily, if_pos hfamily]
  · rw [if_neg hfamily, if_neg hfamily, shownReferences, shownReferences]
    split
    · rfl
    · cases hstale : p.directoryStale with
      | false =>
          have hdirectory : d = p.currentDirectory := by
            rcases hd with hd | ⟨-, hd⟩
            · exact (hcached d hd).1 hstale
            · exact hd
          rw [keptDirectory, hstale, hdirectory]
          rfl
      | true =>
          rw [keptDirectory, hstale]
          cases href : p.currentDirectory.references key with
          | none => rfl
          | some reference =>
              -- the reference is also found from the symbol up
              have hfound := findReference_of_currentDirectory (hshallow hstale) hfamily href
              rw [← hs.findReference_eq, hboth.findReference_eq] at hfound
              simpa [PartialMap.empty] using hfound

theorem answer_eq {host : SageHost σ} {pages : List (Provided ProductPage)}
    (hrun : Run host pages p) {fresh : SageHost σ} (htexts : fresh.texts = p.host.texts)
    (hsources : SameSources p.host.texts p.host.storage fresh.storage) {request : Request}
    (hserved : p.Serves fresh request) : p.answer request = (new fresh).answer request := by
  have hcached := hrun.cachedDirectory
  have hfresh : (new fresh).CachedDirectory := .new fresh
  have hcurrent : (new fresh).currentDirectory = p.currentDirectory := by
    rw [currentDirectory, currentDirectory, hsources.buildSymbolDirectory_eq]
    exact congrArg (fun t => buildSymbolDirectory t fresh.storage) htexts
  cases request with
  | symbols => rw [answer_symbols, answer_symbols, hcurrent]
  | symbol path =>
      rw [(symbol_answer hcached path).2, (symbol_answer hfresh path).2, hcurrent,
        selectedSymbol_eq p.host.texts p.host.storage fresh.storage, ← htexts]
      rfl
  | product path product =>
      obtain ⟨-, d, storage, liveName, hd, hs, hdebug, hanswer⟩ := product_answer hcached path product
      obtain ⟨-, d', storage', freshName, hd', hs', hdebug', hanswer'⟩ :=
        product_answer hfresh path product
      have hd' : d' = p.currentDirectory := by
        rcases hd' with hd' | ⟨-, hd'⟩
        · cases hd'
        · exact hd'.trans hcurrent
      have hboth : SameSources p.host.texts storage storage' := by
        have hs'' := hs'.symm
        rw [show (new fresh).host.texts = p.host.texts from htexts] at hs''
        exact hs.trans (hsources.trans hs'')
      have hlists := listsAlike_keptDirectory (listsAlike_of_listed hd hcached hserved.listed) hs
      have hpages := identityProduct_congr hboth liveName freshName hlists
        fun value (hvalue : shownValue p.host.texts storage path product = some value) key hkey =>
          ⟨resolver_keptDirectory hd hcached hserved.shallow hs hboth key, by
          intro hnone
          rw [hdebug, hdebug']
          refine hserved.printed value ?_ key hkey ?_
          · rw [← hvalue, shownValue, shownValue, hs.resolveLocalSymbol_eq]
          · rw [resolver_keptDirectory hd hcached hserved.shallow hs hs key] at hnone
            exact hnone⟩
      rw [hanswer, hanswer', hpages, hd', show (new fresh).host.texts = p.host.texts from htexts]
      rfl

end LiveInspectionProvider

/-! ### A function added by an edit -/

open LiveInspectionProvider

/-- The symbols of the crate `demo`, which declares the function `f` or nothing. -/
def demoTable (name : String) (declares : Bool) : SymbolTable where
  targetName := name
  root := demoRoot
  data s :=
    if s = demoRoot then
      ⟨.mod, false, demoName, .sourceFile, [], none, none, none⟩
    else
      ⟨.fn, false, ⟨"f", by decide, by decide⟩, .sourceFile, [], none, some demoRoot, none⟩
  members _ := if declares then [demoFn] else []
  completeness _ := .complete

theorem demoTable_children (name : String) (declares : Bool) (s : Symbol) :
    (demoTable name declares).directSymbolChildren s =
      if s = demoRoot then if declares then [demoFn] else [] else [] := by
  by_cases hroot : s = demoRoot <;>
    simp [SymbolTable.directSymbolChildren, SymbolTable.ownedSymbolChildren, demoTable, hroot]

theorem eq_of_mem_demoTable {name : String} {declares : Bool} {s child : Symbol}
    (h : child ∈ (demoTable name declares).directSymbolChildren s) :
    s = demoRoot ∧ child = demoFn ∧ declares = true := by
  rw [demoTable_children] at h
  by_cases hroot : s = demoRoot
  · rw [if_pos hroot] at h
    cases declares with
    | true => exact ⟨hroot, by simpa using h, rfl⟩
    | false => exact absurd h List.not_mem_nil
  · rw [if_neg hroot] at h
    exact absurd h List.not_mem_nil

def demoCrate (name : String) (declares : Bool) : LocalCrate where
  toSymbolTable := demoTable name declares
  height s := if s = demoRoot then 1 else 0
  root_module := ⟨rfl, rfl⟩
  root_owner := rfl
  child_owner := by
    intro s child h _
    obtain ⟨rfl, rfl, rfl⟩ := eq_of_mem_demoTable h
    rfl
  children_nodup := by
    intro s
    rw [demoTable_children]
    cases declares <;> by_cases hroot : s = demoRoot <;> simp [hroot]
  height_lt := by
    intro s child h
    obtain ⟨rfl, rfl, rfl⟩ := eq_of_mem_demoTable h
    decide

structure DemoStorage where
  revision : Nat

instance demoWorkspace : Workspace DemoStorage where
  currentRevision s := s.revision
  setText s _ _ := ⟨s.revision + 1⟩
  evaluate s _ := s
  currentRevision_setText s _ _ := Nat.lt_succ_self s.revision
  currentRevision_evaluate _ _ := rfl
  target _ := "demo"
  target_setText _ _ _ := rfl
  target_evaluate _ _ := rfl
  ids _ := idsFrom 1
  ids_evaluate _ _ := rfl
  debug _ _ := "Symbol"
  debug_evaluate _ _ := rfl
  crate name texts := demoCrate name (declaresF texts)
  targetName_crate _ _ := rfl
  externalReference _ _ := none
  symbolSource _ s := if s = demoFn then some (.sourceFile "fn f() {}") else none
  localFn _ _ := none
  resolveExternal _ _ := none
  stripPrefix _ _ := none

/-- A host of a crate without items. -/
def emptyHost : SageHost DemoStorage := ⟨PartialMap.empty.insert "lib.rs" "", ⟨1⟩, "/demo/src"⟩

/-- The provider after the index was read and the function was written. -/
def editedProvider : LiveInspectionProvider DemoStorage :=
  (((new emptyHost).perform .symbols).2.perform (.applyUpdates [⟨"lib.rs", "fn f() {}"⟩])).2

theorem run_editedProvider : ∃ pages, Run emptyHost pages editedProvider :=
  ⟨_, .step (.step .new .symbols) (.applyUpdates [⟨"lib.rs", "fn f() {}"⟩])⟩

theorem editedProvider_state : editedProvider.directoryStale = true ∧
    declaresF editedProvider.host.texts = true ∧ editedProvider.directory =
      some (buildSymbolDirectory (PartialMap.empty.insert "lib.rs" "") (⟨1⟩ : DemoStorage)) := by
  refine ⟨?_, ?_, ?_⟩
  · rfl
  · rfl
  · rfl

theorem indexedSymbols_demoCrate (name : String) (ids : HostIds) [FxHasher] :
    (demoCrate name false).indexedSymbols ids = [] := by
  rw [LocalCrate.indexedSymbols, LocalCrate.walkSymbols_eq_flatMap]
  rfl

theorem hasPath_demoFn (ids : HostIds) [FxHasher] :
    (demoCrate "demo" true).HasPath ids demoFn "local/demo/value-fn-f" := by
  have hbase : (demoTable "demo" true).baseSegment ids demoFn = "value-fn-f" := by
    have huse : ¬(demoTable "demo" true).UsesHash demoFn :=
      show ¬("f" = "function item") by decide
    rw [SymbolTable.baseSegment, if_neg huse]
    decide
  have hchildren : (demoTable "demo" true).canonicalChildren ids [demoFn] =
      [⟨demoFn, "f", "function", "value-fn-f"⟩] := by
    rw [SymbolTable.canonicalChildren, SymbolTable.canonicalChildrenFrom,
      SymbolTable.canonicalChildrenFrom]
    simp only [SymbolTable.symbolIdentityParts, hbase]
    rfl
  refine LocalCrate.hasPath_iff.mpr ⟨[], ⟨demoFn, "f", "function", "value-fn-f"⟩, ⟨?_, trivial⟩,
    by decide, rfl⟩
  exact hchildren ▸ List.mem_singleton_self _

/-- A path that the directory does not list has no product. -/
theorem identityProduct_of_not_lists {σ : Type} [Queries σ] {texts : SourceTexts} {s : σ}
    {d : SymbolDirectory} {path : SymbolPath} {product : ProductId} {continuationPrefix : String}
    (hstart : ¬startsWith path "external/") (h : ¬d.Lists path) :
    identityProduct texts s d path product continuationPrefix = none := by
  have hfind : d.index.symbols.find? (·.path = path) = none :=
    List.find?_eq_none.mpr fun summary hmem => by simpa using fun hpath => h ⟨summary, hmem, hpath⟩
  rw [identityProduct, if_neg hstart, hfind]
  simp only [externalProduct, resolveExternalPath, if_neg hstart]
  rfl

theorem identityProduct_isSome {texts : SourceTexts} {s : DemoStorage} {d : SymbolDirectory}
    {path : SymbolPath} {continuationPrefix : String} [FxHasher] {symbol : Symbol}
    (hstart : ¬startsWith path "external/") (h : d.Lists path)
    (hresolve : Queries.resolveLocalSymbol texts s path = some symbol) :
    (identityProduct texts s d path "identity" continuationPrefix).isSome := by
  cases hfind : d.index.symbols.find? (·.path = path) with
  | none =>
      obtain ⟨summary, hmem, hpath⟩ := h
      exact absurd hpath (by simpa using List.find?_eq_none.mp hfind summary hmem)
  | some summary =>
      rw [identityProduct, if_neg hstart, hfind]
      simp only [hresolve]
      rfl

/-- The product of the function that was just written is not found. -/
theorem product_after_edit : ¬∀ (host : SageHost DemoStorage) (pages : List (Provided ProductPage))
    (p : LiveInspectionProvider DemoStorage), Run host pages p →
      ∀ fresh : SageHost DemoStorage, fresh.texts = p.host.texts →
        SameSources p.host.texts p.host.storage fresh.storage →
          ∀ request, p.answer request = (new fresh).answer request := by
  intro hclaim
  obtain ⟨pages, hrun⟩ := run_editedProvider
  have hanswers := hclaim _ _ _ hrun editedProvider.host rfl (.refl _)
    (.product "local/demo/value-fn-f" "identity")
  obtain ⟨-, hdeclares, hkept⟩ := editedProvider_state
  have hstart : ¬startsWith "local/demo/value-fn-f" "external/" := by decide
  obtain ⟨-, d, storage, liveName, hd, -, -, hlive⟩ :=
    product_answer hrun.cachedDirectory "local/demo/value-fn-f" "identity"
  obtain ⟨-, d', storage', freshName, hd', -, -, hfresh⟩ :=
    product_answer (p := new editedProvider.host) (.new _) "local/demo/value-fn-f" "identity"
  -- the kept directory is that of the empty crate
  have hmissing : ¬(editedProvider.keptDirectory d).Lists "local/demo/value-fn-f" := by
    rintro ⟨summary, hmem, hpath⟩
    rw [keptDirectory_index] at hmem
    rcases hd with hd | ⟨hnone, -⟩
    · rw [← Option.some.inj (hkept.symm.trans hd)] at hmem
      rcases List.mem_cons.mp hmem with rfl | hmem
      · exact absurd hpath (by decide)
      · obtain ⟨entry, hentry, -⟩ := List.mem_map.mp hmem
        have hwalk : entry ∈ (demoCrate "demo" false).indexedSymbols (idsFrom 1) := hentry
        rw [indexedSymbols_demoCrate] at hwalk
        exact absurd hwalk List.not_mem_nil
    · rw [hkept] at hnone
      cases hnone
  -- the fresh provider finds the function
  have hpath : (crateOf editedProvider.host.texts storage').HasPath (idsFrom 1) demoFn
      "local/demo/value-fn-f" := by
    rw [show crateOf editedProvider.host.texts storage' =
      demoCrate "demo" (declaresF editedProvider.host.texts) from rfl, hdeclares]
    exact hasPath_demoFn (idsFrom 1)
  have hlists : ((new editedProvider.host).keptDirectory d').Lists "local/demo/value-fn-f" := by
    rcases hd' with hd' | ⟨-, rfl⟩
    · cases hd'
    · obtain ⟨summary, hmem, hsummary⟩ := hpath
      exact ⟨summary, List.mem_cons_of_mem _ (List.mem_map.mpr ⟨_, hmem, rfl⟩), hsummary⟩
  have hresolve : Queries.resolveLocalSymbol editedProvider.host.texts storage'
      "local/demo/value-fn-f" = some demoFn :=
    LocalCrate.resolveLocalSymbol_eq_some.mpr (LocalCrate.hasPath_iff.mp hpath)
  obtain ⟨g, hg⟩ := Option.isSome_iff_exists.mp
    (show (identityProduct editedProvider.host.texts storage'
      ((new editedProvider.host).keptDirectory d') "local/demo/value-fn-f" "identity"
      freshName).isSome from identityProduct_isSome hstart hlists hresolve)
  rw [hlive, hfresh, identityProduct_of_not_lists hstart hmissing] at hanswers
  rw [show (new editedProvider.host).host.texts = editedProvider.host.texts from rfl, hg] at hanswers
  cases hanswers

/-- The product of the function is found once the index was read again. -/
theorem product_after_symbols :
    ((editedProvider.perform .symbols).2.answer (.product "local/demo/value-fn-f" "identity")) =
      (new editedProvider.host).answer (.product "local/demo/value-fn-f" "identity") := by
  obtain ⟨pages, hrun⟩ := run_editedProvider
  have hsame : SameSources (editedProvider.perform .symbols).2.host.texts
      (editedProvider.perform .symbols).2.host.storage editedProvider.host.storage := .refl _
  refine answer_eq (hrun.step .symbols) rfl hsame ⟨?_, ?_, ?_⟩
  · exact nofun
  · exact nofun
  · intro value hvalue
    rw [shownValue, if_neg (by decide)] at hvalue
    obtain ⟨symbol, -, hvalue⟩ := Option.bind_eq_some_iff.mp hvalue
    cases hvalue

end Sage.Inspector
