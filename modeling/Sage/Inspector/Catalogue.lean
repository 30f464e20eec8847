import Sage.Inspector.History

/-!
# Inspector — the catalogue of products

A selection lists the products of a symbol by the kind of the symbol; a product request computes
the product.  Within one revision the two agree, except where the metadata of an external symbol
has no signature or no items, and where the kept directory is stale and does not list the path.

* `Unedited` — a provider before and after requests that change no source.
* `External.Answers` — the metadata has what the catalogue promises.
* `product_iff_listed` — exactly when a symbol has the products that are listed for it.
-/

namespace Sage.Inspector

/-! ### Lookups in the directory -/

section Lookup

variable {α β γ : Type} [DecidableEq α]

theorem PartialMap.foldl_insert_of_notMem (key : γ → α) {value : γ → β} {a : α} {entries : List γ}
    (h : a ∉ entries.map key) : ∀ m : PartialMap α β,
      entries.foldl (fun m e => m.insert (key e) (value e)) m a = m a := by
  induction entries with
  | nil => exact fun _ => rfl
  | cons e entries ih =>
      intro m
      rw [List.map_cons, List.mem_cons, not_or] at h
      rw [List.foldl_cons, ih h.2]
      exact Function.update_of_ne h.1 _ _

/-- Inserting entries with different keys keeps all of them. -/
theorem PartialMap.foldl_insert_of_mem (key : γ → α) {value : γ → β} {e : γ} {entries : List γ}
    (hkeys : (entries.map key).Nodup) (h : e ∈ entries) : ∀ m : PartialMap α β,
      entries.foldl (fun m e => m.insert (key e) (value e)) m (key e) = some (value e) := by
  induction entries with
  | nil => exact absurd h List.not_mem_nil
  | cons first entries ih =>
      intro m
      rw [List.map_cons, List.nodup_cons] at hkeys
      rw [List.foldl_cons]
      rcases List.mem_cons.mp h with rfl | h
      · rw [PartialMap.foldl_insert_of_notMem key hkeys.1]
        exact Function.update_self _ _ _
      · exact ih hkeys.2 h _

end Lookup

/-! ### Listed products -/

namespace External

/-- The metadata has the signature and the items that the catalogue lists.  Those of a module and
of an enum are its children, which are always there. -/
def Answers (e : External) : Prop :=
  (e.kind ∈ [.fn, .trait, .struct, .enum] → e.signature.isSome) ∧
    (e.kind ∈ [.mod, .enum, .trait] → e.items.isSome)

/-- The catalogue lists a signature for the kinds that have a title for it. -/
theorem signatureTitle_isSome (kind : SymExtKind) :
    (signatureTitle kind).isSome ↔ kind ∈ [.fn, .trait, .struct, .enum] := by
  cases kind <;> decide

end External

section Products

variable {σ : Type} [Queries σ] {texts : SourceTexts} {s : σ} {path : SymbolPath}
  {product : ProductId} {continuationPrefix : String}

open Queries

theorem mem_externalProductCatalog {kind : SymExtKind} :
    product ∈ (externalProductCatalog path kind).map ProductDescriptor.id ↔
      product = "identity" ∨
        product = "signature" ∧ kind ∈ [.fn, .trait, .struct, .enum] ∨
        product = "items" ∧ kind ∈ [.mod, .enum, .trait] := by
  rw [externalProductCatalog]
  by_cases hsignature : kind ∈ [.fn, .trait, .struct, .enum] <;>
    by_cases hitems : kind ∈ [.mod, .enum, .trait] <;>
    simp [hsignature, hitems, productDescriptor]

theorem mem_productCatalog {symbol : Symbol} :
    product ∈ (productCatalog texts s path symbol).map ProductDescriptor.id ↔
      product = "identity" ∨ product = "source" ∧ (symbolSource texts s symbol).isSome ∨
        product ∈ ["concrete-ir", "signature", "diagnostics", "typed-ir"] ∧
          (localFn texts s symbol).isSome := by
  rw [productCatalog]
  by_cases hsource : (symbolSource texts s symbol).isSome <;>
    by_cases hfn : (localFn texts s symbol).isSome <;>
    simp [hsource, hfn, productDescriptor]

theorem externalProduct_isSome {e : External} (he : resolveExternalPath texts s path = some e)
    (hreference : e.reference.isSome) :
    (externalProduct texts s path product continuationPrefix).isSome ↔
      product = "identity" ∨
        product = "signature" ∧ e.kind ∈ [.fn, .trait, .struct, .enum] ∧ e.signature.isSome ∨
        product = "items" ∧ e.kind ∈ [.mod, .enum, .trait] ∧ e.items.isSome := by
  rw [externalProduct, he, Option.bind_eq_bind, Option.bind_some]
  split
  · obtain ⟨reference, hr⟩ := Option.isSome_iff_exists.mp hreference
    simp [hr]
  · rw [← External.signatureTitle_isSome]
    cases External.signatureTitle e.kind <;> cases e.signature <;> simp
  · by_cases hitems : e.kind ∈ [.mod, .enum, .trait]
    · rw [if_pos hitems]
      cases e.items <;> simp [hitems]
    · rw [if_neg hitems]
      simp [hitems]
  · rename_i hidentity hsignature hitems
    refine iff_of_false Bool.false_ne_true ?_
    rintro (hid | ⟨hid, -⟩ | ⟨hid, -⟩)
    · exact hidentity hid
    · exact hsignature hid
    · exact hitems hid

/-- The products of an external symbol are those listed for it exactly if the metadata answers. -/
theorem external_agrees_iff {e : External} (he : resolveExternalPath texts s path = some e)
    (hreference : e.reference.isSome) :
    (∀ product, (externalProduct texts s path product continuationPrefix).isSome ↔
      product ∈ (externalProductCatalog path e.kind).map ProductDescriptor.id) ↔ e.Answers := by
  constructor
  · intro h
    constructor
    · intro hkind
      have hlisted :=
        (h "signature").mpr (mem_externalProductCatalog.mpr (.inr (.inl ⟨rfl, hkind⟩)))
      rw [externalProduct_isSome he hreference] at hlisted
      rcases hlisted with hid | ⟨-, -, hsome⟩ | ⟨hid, -⟩
      · exact absurd hid (by decide)
      · exact hsome
      · exact absurd hid (by decide)
    · intro hkind
      have hlisted := (h "items").mpr (mem_externalProductCatalog.mpr (.inr (.inr ⟨rfl, hkind⟩)))
      rw [externalProduct_isSome he hreference] at hlisted
      rcases hlisted with hid | ⟨hid, -⟩ | ⟨-, -, hsome⟩
      · exact absurd hid (by decide)
      · exact absurd hid (by decide)
      · exact hsome
  · intro h product
    rw [externalProduct_isSome he hreference, mem_externalProductCatalog]
    exact or_congr Iff.rfl (or_congr
      (and_congr_right fun _ => and_iff_left_of_imp h.1)
      (and_congr_right fun _ => and_iff_left_of_imp h.2))

theorem identityProduct_isSome_iff {d : SymbolDirectory} {symbol : Symbol}
    (hstart : ¬startsWith path "external/") (h : d.Lists path)
    (hresolve : resolveLocalSymbol texts s path = some symbol) :
    (identityProduct texts s d path product continuationPrefix).isSome ↔
      product ∈ (productCatalog texts s path symbol).map ProductDescriptor.id := by
  rw [mem_productCatalog, identityProduct, if_neg hstart]
  cases hfind : d.index.symbols.find? (·.path = path) with
  | none =>
      obtain ⟨summary, hmem, hpath⟩ := h
      exact absurd hpath (by simpa using List.find?_eq_none.mp hfind summary hmem)
  | some summary =>
      simp only [hresolve, Option.bind_eq_bind, Option.bind_some]
      split
      · simp
      · simp
      · simp
      · simp
      · simp
      · simp
      · rename_i hidentity hsource hcst hsig hbody hdiagnostics
        refine iff_of_false Bool.false_ne_true ?_
        rintro (hid | ⟨hid, -⟩ | ⟨hid, -⟩)
        · exact hidentity hid
        · exact hsource hid
        · simp only [List.mem_cons, List.not_mem_nil, or_false] at hid
          rcases hid with hid | hid | hid | hid
          · exact hcst hid
          · exact hsig hid
          · exact hdiagnostics hid
          · exact hbody hid

end Products

/-! ### The current directory -/

section Current

variable {σ : Type} [Workspace σ] [FxHasher] {texts : SourceTexts} {s : σ} {path : SymbolPath}

open Workspace

/-- The directory locates the symbols that a path is replayed to. -/
theorem locators_eq (path : SymbolPath) :
    (buildSymbolDirectory texts s).locators path = Queries.resolveLocalSymbol texts s path := by
  have hnodup : ((Queries.walkSymbols texts s).map (·.2.path)).Nodup :=
    LocalCrate.walkSymbols_nodup _ _ _
  by_cases hlisted : path ∈ (Queries.walkSymbols texts s).map (·.2.path)
  · obtain ⟨entry, hentry, rfl⟩ := List.mem_map.mp hlisted
    have hlocated : (buildSymbolDirectory texts s).locators entry.2.path = some entry.1 :=
      PartialMap.foldl_insert_of_mem (fun e : Symbol × SymbolSummary => e.2.path) hnodup hentry _
    have hpath : (crateOf texts s).HasPath (ids s) entry.1 entry.2.path := ⟨entry.2, hentry, rfl⟩
    rw [hlocated]
    exact (LocalCrate.resolveLocalSymbol_eq_some.mpr (LocalCrate.hasPath_iff.mp hpath)).symm
  · have hlocated : (buildSymbolDirectory texts s).locators path = none :=
      PartialMap.foldl_insert_of_notMem (fun e : Symbol × SymbolSummary => e.2.path) hlisted _
    rw [hlocated]
    cases hresolve : Queries.resolveLocalSymbol texts s path with
    | none => rfl
    | some symbol =>
        obtain ⟨summary, hmem, rfl⟩ :=
          LocalCrate.hasPath_iff.mpr (LocalCrate.resolveLocalSymbol_eq_some.mp hresolve)
        exact absurd (List.mem_map.mpr ⟨_, hmem, rfl⟩) hlisted

/-- The ids of the products that a selection lists. -/
def SelectedSymbol.ids (selected : SelectedSymbol) : List ProductId :=
  selected.products.map ProductDescriptor.id

/-- What a selection lists for a symbol of the local crate. -/
theorem local_ids {selected : SelectedSymbol} (hstart : ¬startsWith path "external/")
    (h : selectedSymbol texts s (buildSymbolDirectory texts s) path = some selected) :
    (buildSymbolDirectory texts s).Lists path ∧
      selected.ids = ((Queries.resolveLocalSymbol texts s path).map fun symbol =>
        (productCatalog texts s path symbol).map ProductDescriptor.id).getD [] := by
  rw [selectedSymbol, if_neg hstart] at h
  cases hfind : (buildSymbolDirectory texts s).index.symbols.find? (·.path = path) with
  | none =>
      rw [hfind] at h
      simp only [externalSelectedSymbol, resolveExternalPath, if_neg hstart] at h
      cases h
  | some summary =>
      rw [hfind] at h
      obtain rfl := Option.some.inj h
      refine ⟨⟨summary, List.mem_of_find?_eq_some hfind, by simpa using List.find?_some hfind⟩, ?_⟩
      rw [SelectedSymbol.ids]
      dsimp only
      rw [locators_eq]
      cases Queries.resolveLocalSymbol texts s path <;> rfl

/-- What a selection lists for a symbol of another crate. -/
theorem external_ids {d : SymbolDirectory} {selected : SelectedSymbol}
    (hstart : startsWith path "external/") (h : selectedSymbol texts s d path = some selected) :
    ∃ e, resolveExternalPath texts s path = some e ∧ e.reference.isSome ∧
      selected.ids = (externalProductCatalog path e.kind).map ProductDescriptor.id := by
  rw [selectedSymbol, if_pos hstart, externalSelectedSymbol] at h
  obtain ⟨e, he, h⟩ := Option.bind_eq_some_iff.mp h
  obtain ⟨reference, hreference, h⟩ := Option.bind_eq_some_iff.mp h
  obtain rfl := Option.some.inj h
  exact ⟨e, he, Option.isSome_of_eq_some hreference, rfl⟩

end Current

namespace LiveInspectionProvider

variable {σ : Type} [Workspace σ] [FxHasher] {p q : LiveInspectionProvider σ}

open Workspace

/-! ### One revision -/

/-- No source changes and no revision starts. -/
structure Unedited (p p' : LiveInspectionProvider σ) : Prop where
  texts : p'.host.texts = p.host.texts
  sources : SameSources p.host.texts p'.host.storage p.host.storage
  mark : p'.mark = p.mark

namespace Unedited

variable {p' p'' : LiveInspectionProvider σ}

theorem refl (p : LiveInspectionProvider σ) : Unedited p p := ⟨rfl, .refl _, rfl⟩

theorem trans (h : Unedited p p') (h' : Unedited p' p'') : Unedited p p'' where
  texts := h'.texts.trans h.texts
  sources := by
    have hsources := h'.sources
    rw [h.texts] at hsources
    exact hsources.trans h.sources
  mark := h'.mark.trans h.mark

theorem symm (h : Unedited p p') : Unedited p' p where
  texts := h.texts.symm
  sources := by
    rw [h.texts]
    exact h.sources.symm
  mark := h.mark.symm

theorem evaluate {α : Type} (p : LiveInspectionProvider σ) (e : Evaluation)
    (f : SourceTexts → σ → α) : Unedited p { p with host := (p.host.withContext e f).2 } :=
  ⟨rfl, .evaluate_left _ _, congrArg (Prod.mk _) (Queries.currentRevision_evaluate _ _)⟩

theorem directory' (p : LiveInspectionProvider σ) : Unedited p p.directory'.2 := by
  rw [LiveInspectionProvider.directory']
  cases p.directory with
  | some d => exact refl p
  | none => exact (evaluate p .directory buildSymbolDirectory).trans ⟨rfl, .refl _, rfl⟩

theorem currentDirectory_eq (h : Unedited p p') : p'.currentDirectory = p.currentDirectory := by
  rw [currentDirectory, h.texts, h.sources.buildSymbolDirectory_eq, currentDirectory]

end Unedited

theorem symbol_unedited (p : LiveInspectionProvider σ) (path : SymbolPath) :
    Unedited p (p.symbol path).2 := by
  set q := if p.directoryStale then { p with directory := none } else p with hq
  have hpq : Unedited p q := by
    rw [hq]
    split
    · exact ⟨rfl, .refl _, rfl⟩
    · exact .refl p
  have hkept : Unedited q.directory'.2 { q.directory'.2 with directoryStale := false } :=
    ⟨rfl, .refl _, rfl⟩
  have hpr := (hpq.trans (.directory' q)).trans hkept
  set r : LiveInspectionProvider σ := { q.directory'.2 with directoryStale := false } with hr
  set chosen := r.host.withContext (.selection path) fun texts storage =>
    selectedSymbol texts storage q.directory'.1 path with hchosen
  have hchosenUnedited : Unedited p { r with host := chosen.2 } := hpr.trans (.evaluate r _ _)
  rw [symbol_eq hq hr hchosen]
  cases chosen.1 with
  | none => exact hchosenUnedited
  | some selected => exact hchosenUnedited.trans ⟨rfl, .refl _, rfl⟩

theorem product_unedited (p : LiveInspectionProvider σ) (path : SymbolPath) (product : ProductId) :
    Unedited p (p.product path product).2 := by
  set q : LiveInspectionProvider σ := { p with nextContinuation := p.nextContinuation + 1 } with hq
  have hpq : Unedited p q := ⟨rfl, .refl _, rfl⟩
  set r := q.directory'.2 with hr
  have hpr : Unedited p r := hpq.trans (.directory' q)
  set generated := r.host.withContext (.product path product) fun texts storage =>
    identityProduct texts storage
      (if r.directoryStale then { q.directory'.1 with references := PartialMap.empty }
        else q.directory'.1) path product
      (q.revisionId ++ "_product_" ++ q.nextContinuation.repr) with hgenerated
  have hgeneratedUnedited : Unedited p { r with host := generated.2 } := hpr.trans (.evaluate r _ _)
  rw [product_eq hq hr hgenerated]
  cases generated.1 with
  | none => exact hgeneratedUnedited
  | some g => exact hgeneratedUnedited.trans ⟨rfl, .refl _, rfl⟩

theorem pushRevision_mark (p : LiveInspectionProvider σ) (revision : RetainedRevision) :
    (p.pushRevision revision).mark = p.mark := by
  rcases pushRevision_cases p revision with ⟨-, heq⟩ | ⟨expired, rest, -, -, heq⟩ <;>
    rw [heq] <;> rfl

/-- An operation changes no source, or it starts a later revision. -/
theorem perform_unedited (p : LiveInspectionProvider σ) (operation : Operation σ) :
    Unedited p (p.perform operation).2 ∨ p.mark.Earlier (p.perform operation).2.mark := by
  cases operation with
  | symbols =>
      exact .inl ((Unedited.evaluate p .directory buildSymbolDirectory).trans ⟨rfl, .refl _, rfl⟩)
  | symbol path => exact .inl (symbol_unedited p path)
  | product symbol product => exact .inl (product_unedited p symbol product)
  | applyUpdates updates =>
      rcases p.applyUpdates_cases updates with
        ⟨e, heq⟩ | ⟨host, cause, deltas, batch, answer, hlt, heq⟩
      · rw [perform, heq]
        exact .inl (.refl p)
      · rw [perform, heq]
        refine .inr ?_
        have hmark := pushRevision_mark (σ := σ)
          { p with host, directoryStale := true, nextEditBatch := batch }
          ⟨Mark.name (p.databaseGeneration, host.salsaRevision), cause, deltas, []⟩
        exact hmark ▸ .inr ⟨rfl, hlt⟩
  | reloadWorkspace reason replacement =>
      cases replacement with
      | error message => exact .inl (.refl p)
      | ok host =>
          refine .inr ?_
          have hmark := pushRevision_mark (σ := σ)
            { p with
              host
              directory := none
              directoryStale := false
              databaseGeneration := p.databaseGeneration + 1
              continuations := PartialMap.empty }
            ⟨Mark.name (p.databaseGeneration + 1, host.salsaRevision),
              .workspaceReload p.revisionId reason, [], []⟩
          exact hmark ▸ .inl (Nat.lt_succ_self _)
  | revision => exact .inl (.refl p)
  | session => exact .inl (.refl p)
  | revisions => exact .inl (.refl p)
  | continuation handle =>
      simp only [perform, continuation]
      cases p.continuations handle <;> exact .inl (.refl p)
  | run handle =>
      simp only [perform, run]
      cases p.runs handle <;> exact .inl (.refl p)
  | revisionDetail revision =>
      simp only [perform, revisionDetail]
      cases p.revisions.find? (·.revisionId = revision) <;> exact .inl (.refl p)
  | compare source target symbol product =>
      simp only [perform, compare]
      cases p.products (source, symbol, product) <;>
        cases p.products (target, symbol, product) <;> exact .inl (.refl p)

/-- The provider after operations. -/
def after (p : LiveInspectionProvider σ) (operations : List (Operation σ)) :
    LiveInspectionProvider σ := operations.foldl (fun p operation => (p.perform operation).2) p

theorem after_unedited (operations : List (Operation σ)) : ∀ p : LiveInspectionProvider σ,
    Unedited p (p.after operations) ∨ p.mark.Earlier (p.after operations).mark := by
  induction operations with
  | nil => exact fun p => .inl (.refl p)
  | cons operation operations ih =>
      intro p
      have hrest := ih (p.perform operation).2
      rcases perform_unedited p operation with hstep | hstep
      · rcases hrest with hrest | hrest
        · exact .inl (hstep.trans hrest)
        · exact .inr (hstep.mark ▸ hrest)
      · rcases hrest with hrest | hrest
        · exact .inr (hrest.mark ▸ hstep)
        · exact .inr (hstep.trans hrest)

/-- Two states in one revision, one of them reached from the other. -/
def SameRevision (p q : LiveInspectionProvider σ) : Prop :=
  p.revisionId = q.revisionId ∧
    ((∃ operations, q = p.after operations) ∨ ∃ operations, p = q.after operations)

theorem SameRevision.unedited (h : SameRevision p q) : Unedited p q := by
  obtain ⟨hrevision, hreached⟩ := h
  rw [revisionId_eq, revisionId_eq] at hrevision
  have hmark := Mark.name_injective hrevision
  rcases hreached with ⟨operations, rfl⟩ | ⟨operations, rfl⟩
  · rcases after_unedited operations p with hsame | hlater
    · exact hsame
    · exact absurd hmark hlater.ne
  · rcases after_unedited operations q with hsame | hlater
    · exact hsame.symm
    · exact absurd hmark.symm hlater.ne

/-! ### Agreement -/

def HasProduct (p : LiveInspectionProvider σ) (path : SymbolPath) (product : ProductId) : Prop :=
  ∃ page, (p.product path product).1 = .ok page

/-- Nothing keeps a product request from what a selection lists: the metadata answers, and a stale
directory lists the path. -/
def Offers (p : LiveInspectionProvider σ) (path : SymbolPath) : Prop :=
  if startsWith path "external/" then
    ∀ e, resolveExternalPath p.host.texts p.host.storage path = some e → e.Answers
  else p.directoryStale = true → ∀ d, p.directory = some d → d.Lists path

theorem hasProduct_iff (hp : p.CachedDirectory) (path : SymbolPath) (product : ProductId) :
    ∃ (storage : σ) (continuationPrefix : String), SameSources p.host.texts storage p.host.storage ∧
      (p.HasProduct path product ↔ (identityProduct p.host.texts storage
        (p.keptDirectory (p.directory.getD p.currentDirectory)) path product
          continuationPrefix).isSome) := by
  obtain ⟨-, d, storage, continuationPrefix, hd, hs, -, hanswer⟩ := product_answer hp path product
  have hkept : p.directory.getD p.currentDirectory = d := by
    rcases hd with hd | ⟨hd, rfl⟩ <;> rw [hd] <;> rfl
  rw [hkept]
  refine ⟨storage, continuationPrefix, hs, ?_⟩
  rw [answer] at hanswer
  cases hpage : identityProduct p.host.texts storage (p.keptDirectory d) path product
      continuationPrefix with
  | none =>
      rw [hpage] at hanswer
      refine iff_of_false ?_ Bool.false_ne_true
      rintro ⟨page, hok⟩
      rw [hok] at hanswer
      cases hanswer
  | some g =>
      rw [hpage] at hanswer
      refine iff_of_true ?_ rfl
      cases hok : (p.product path product).1 with
      | error e =>
          rw [hok] at hanswer
          cases hanswer
      | ok page => exact ⟨page, hok⟩

/-- A selection reads the current sources, so it says the same in any state of a revision. -/
theorem selected_of_symbol (hp : p.CachedDirectory) (h : Unedited p q) {path : SymbolPath}
    {selected : Provided SelectedSymbol} (hselected : (p.symbol path).1 = .ok selected) :
    selectedSymbol q.host.texts q.host.storage q.currentDirectory path = some selected.value := by
  have hanswer := (symbol_answer hp path).2
  rw [answer, hselected] at hanswer
  rw [h.texts, h.currentDirectory_eq, selectedSymbol_eq _ _ p.host.storage]
  cases hsymbol : selectedSymbol p.host.texts p.host.storage p.currentDirectory path with
  | none =>
      rw [hsymbol] at hanswer
      cases hanswer
  | some value =>
      rw [hsymbol] at hanswer
      cases hanswer
      rfl

theorem lists_root {texts : SourceTexts} {s : σ} (htarget : target s = target q.host.storage) :
    (buildSymbolDirectory texts s).Lists (crateOf q.host.texts q.host.storage).rootPath := by
  refine ⟨(crateOf texts s).rootSummary, List.mem_cons_self, ?_⟩
  have hname : (crateOf texts s).targetName = (crateOf q.host.texts q.host.storage).targetName := by
    rw [crateOf, targetName_crate, crateOf, targetName_crate, htarget]
  exact congrArg (fun name => "local/" ++ safeSegment name) hname

/-- A listed path is the root or leads to a symbol. -/
theorem eq_root_of_lists {path : SymbolPath} (h : q.currentDirectory.Lists path)
    (hresolve : Queries.resolveLocalSymbol q.host.texts q.host.storage path = none) :
    path = (crateOf q.host.texts q.host.storage).rootPath := by
  obtain ⟨summary, hmem, rfl⟩ := h
  rcases List.mem_cons.mp hmem with rfl | hmem
  · rfl
  · obtain ⟨entry, hentry, rfl⟩ := List.mem_map.mp hmem
    have hpath : (crateOf q.host.texts q.host.storage).HasPath (ids q.host.storage) entry.1
        entry.2.path := ⟨entry.2, hentry, rfl⟩
    have hsome : Queries.resolveLocalSymbol q.host.texts q.host.storage entry.2.path =
        some entry.1 := LocalCrate.resolveLocalSymbol_eq_some.mpr (LocalCrate.hasPath_iff.mp hpath)
    rw [hsome] at hresolve
    cases hresolve

/-- The ids that are printed do not count for what the metadata has. -/
theorem resolveExternalPath_printing {texts : SourceTexts} {s : σ} {path : SymbolPath}
    {e : External} (he : resolveExternalPath texts s path = some e) (s' : σ) :
    ∃ e', resolveExternalPath texts s' path = some e' ∧ e'.kind = e.kind ∧
      e'.reference = e.reference ∧ e'.signature.isSome = e.signature.isSome ∧
      e'.items.isSome = e.items.isSome := by
  have hexternal (storage : σ) : resolveExternalPath texts storage path =
      if startsWith path "external/" then
        (resolveExternal σ texts path).map (External.printing (debug storage)) else none := rfl
  rw [hexternal] at he
  split at he
  · rename_i hstart
    obtain ⟨raw, hraw, rfl⟩ := Option.map_eq_some_iff.mp he
    refine ⟨raw.printing (debug s'), by rw [hexternal, if_pos hstart, hraw]; rfl, rfl, rfl, ?_, ?_⟩
    · simp only [External.printing, Option.isSome_map]
    · simp only [External.printing, Option.isSome_map]
  · cases he

theorem hasProduct_external (hq : q.CachedDirectory) {path : SymbolPath} {product : ProductId}
    {e : External} (he : resolveExternalPath q.host.texts q.host.storage path = some e)
    (hreference : e.reference.isSome) (hstart : startsWith path "external/") :
    q.HasProduct path product ↔
      (externalProduct q.host.texts q.host.storage path product "").isSome := by
  obtain ⟨storage, continuationPrefix, -, hhas⟩ := hasProduct_iff hq path product
  obtain ⟨e', he', hkind, href, hsignature, hitems⟩ := resolveExternalPath_printing he storage
  rw [hhas, identityProduct, if_pos hstart,
    externalProduct_isSome he' (by rw [href]; exact hreference),
    externalProduct_isSome he hreference, hkind, hsignature, hitems]

/-- The products of a local symbol are those listed for it, where the kept directory lists it. -/
theorem hasProduct_local (hq : q.CachedDirectory) {path : SymbolPath} {product : ProductId}
    (hstart : ¬startsWith path "external/") : q.HasProduct path product ↔
      (q.directory.getD q.currentDirectory).Lists path ∧
        ∃ symbol, Queries.resolveLocalSymbol q.host.texts q.host.storage path = some symbol ∧
          product ∈ (productCatalog q.host.texts q.host.storage path symbol).map
            ProductDescriptor.id := by
  obtain ⟨storage, continuationPrefix, hs, hhas⟩ := hasProduct_iff hq path product
  set d := q.directory.getD q.currentDirectory with hd
  have hkept : (q.keptDirectory d).Lists path ↔ d.Lists path := by
    rw [SymbolDirectory.Lists, keptDirectory_index]
    rfl
  rw [hhas, ← hkept, ← hs.resolveLocalSymbol_eq]
  by_cases hlists : (q.keptDirectory d).Lists path
  · cases hresolve : Queries.resolveLocalSymbol q.host.texts storage path with
    | none =>
        rw [identityProduct, if_neg hstart]
        cases (q.keptDirectory d).index.symbols.find? (·.path = path) with
        | none => simp [externalProduct, resolveExternalPath, hstart]
        | some summary => simp [hresolve]
    | some symbol =>
        rw [identityProduct_isSome_iff hstart hlists hresolve, productCatalog_eq _ _ q.host.storage]
        simp [hlists]
  · rw [identityProduct_of_not_lists hstart hlists]
    simp [hlists]

/-- The kept directory lists a path that a selection accepts, if it does not keep a request from
its products. -/
theorem lists_iff_offers (hq : q.CachedDirectory) {path : SymbolPath}
    (hlisted : q.currentDirectory.Lists path) :
    (q.directory.getD q.currentDirectory).Lists path ↔
      (q.directoryStale = true → ∀ d, q.directory = some d → d.Lists path) := by
  cases hd : q.directory with
  | none => exact iff_of_true hlisted fun _ => nofun
  | some d =>
      constructor
      · intro h _ d' hd'
        obtain rfl := Option.some.inj hd'
        exact h
      · intro h
        cases hstale : q.directoryStale with
        | false =>
            rw [Option.getD_some, (hq d hd).1 hstale]
            exact hlisted
        | true => exact h hstale d rfl

/-- In one revision a symbol has the products that are listed for it exactly if nothing keeps a
request from them. -/
theorem product_iff_listed {host host' : SageHost σ} {pages pages' : List (Provided ProductPage)}
    (hp : Run host pages p) (hq : Run host' pages' q) (hrevision : SameRevision p q)
    {path : SymbolPath} {selected : Provided SelectedSymbol}
    (hselected : (p.symbol path).1 = .ok selected) :
    (∀ product, q.HasProduct path product ↔ product ∈ selected.value.ids) ↔ q.Offers path := by
  have hcached := hq.cachedDirectory
  have hsymbol := selected_of_symbol hp.cachedDirectory hrevision.unedited hselected
  rw [Offers]
  by_cases hstart : startsWith path "external/"
  · rw [if_pos hstart]
    obtain ⟨e, he, hreference, hids⟩ := external_ids hstart hsymbol
    simp only [hasProduct_external hcached he hreference hstart, hids]
    rw [external_agrees_iff he hreference]
    constructor
    · intro h e' he'
      obtain rfl := Option.some.inj (he.symm.trans he')
      exact h
    · exact fun h => h e he
  · rw [if_neg hstart]
    obtain ⟨hlisted, hids⟩ := local_ids hstart hsymbol
    rw [← lists_iff_offers hcached hlisted]
    simp only [hasProduct_local hcached hstart]
    cases hresolve : Queries.resolveLocalSymbol q.host.texts q.host.storage path with
    | none =>
        -- the crate has no products, and every directory lists it
        have hids' : selected.value.ids = [] := by rw [hids, hresolve]; rfl
        refine iff_of_true (fun product => by simp [hids']) ?_
        have hroot := eq_root_of_lists hlisted hresolve
        cases hd : q.directory with
        | none => exact hlisted
        | some d =>
            obtain ⟨-, texts, storage, htarget, rfl⟩ := hcached d hd
            rw [hroot]
            exact lists_root htarget
    | some symbol =>
        have hids' : selected.value.ids =
            (productCatalog q.host.texts q.host.storage path symbol).map ProductDescriptor.id := by
          rw [hids, hresolve]
          rfl
        constructor
        · intro h
          refine ((h "identity").mpr ?_).1
          rw [hids']
          exact mem_productCatalog.mpr (.inl rfl)
        · intro h product
          rw [hids']
          simp [h]

/-- A selection succeeds if the current directory has an answer. -/
theorem symbol_ok (hp : p.CachedDirectory) {path : SymbolPath}
    (h : (selectedSymbol p.host.texts p.host.storage p.currentDirectory path).isSome) :
    ∃ selected, (p.symbol path).1 = .ok selected := by
  have hanswer := (symbol_answer hp path).2
  obtain ⟨value, hvalue⟩ := Option.isSome_iff_exists.mp h
  rw [answer, hvalue] at hanswer
  cases hsymbol : (p.symbol path).1 with
  | error e =>
      rw [hsymbol] at hanswer
      cases hanswer
  | ok selected => exact ⟨selected, rfl⟩

end LiveInspectionProvider

theorem selectedSymbol_isSome {σ : Type} [Queries σ] {texts : SourceTexts} {s : σ}
    {d : SymbolDirectory} {path : SymbolPath} (hstart : ¬startsWith path "external/")
    (h : d.Lists path) : (selectedSymbol texts s d path).isSome := by
  rw [selectedSymbol, if_neg hstart]
  cases hfind : d.index.symbols.find? (·.path = path) with
  | none =>
      obtain ⟨summary, hmem, hpath⟩ := h
      exact absurd hpath (by simpa using List.find?_eq_none.mp hfind summary hmem)
  | some summary => rfl

open LiveInspectionProvider

/-- The function of the crate `demo`, asked for by a provider that has no directory yet. -/
theorem product_iff_listed_demoFn : ∃ selected,
    ((new editedProvider.host).symbol "local/demo/value-fn-f").1 = .ok selected ∧
      ∀ product, (new editedProvider.host).HasProduct "local/demo/value-fn-f" product ↔
        product ∈ selected.value.ids := by
  have hstart : ¬startsWith "local/demo/value-fn-f" "external/" := by decide
  obtain ⟨-, hdeclares, -⟩ := editedProvider_state
  have hpath : (crateOf editedProvider.host.texts editedProvider.host.storage).HasPath (idsFrom 1)
      demoFn "local/demo/value-fn-f" := by
    rw [show crateOf editedProvider.host.texts editedProvider.host.storage =
      demoCrate "demo" (declaresF editedProvider.host.texts) from rfl, hdeclares]
    exact hasPath_demoFn (idsFrom 1)
  have hlists : (new editedProvider.host).currentDirectory.Lists "local/demo/value-fn-f" := by
    obtain ⟨summary, hmem, hsummary⟩ := hpath
    exact ⟨summary, List.mem_cons_of_mem _ (List.mem_map.mpr ⟨_, hmem, rfl⟩), hsummary⟩
  obtain ⟨selected, hselected⟩ :=
    symbol_ok (p := new editedProvider.host) (.new _) (selectedSymbol_isSome hstart hlists)
  refine ⟨selected, hselected, ?_⟩
  refine (product_iff_listed .new .new ⟨rfl, .inl ⟨[], rfl⟩⟩ hselected).mpr ?_
  rw [Offers, if_neg hstart]
  exact nofun

/-! ### A trait without items -/

structure TraitStorage where
  revision : Nat

/-- The trait `dep::Shape`, whose associated items the metadata has not all. -/
def shapeTrait : External where
  kind := .trait
  reference := some
    ⟨"external/dep-0000000000000001/trait-Shape-0", "Shape", ⟨"External symbol", []⟩⟩
  parent := none
  defPath := some "dep::Shape"
  signature := some (.scalar "TraitSignature" (.string "Shape"))
  items := none

instance traitWorkspace : Workspace TraitStorage where
  currentRevision s := s.revision
  setText s _ _ := ⟨s.revision + 1⟩
  evaluate s _ := s
  currentRevision_setText s _ _ := Nat.lt_succ_self s.revision
  currentRevision_evaluate _ _ := rfl
  target _ := "demo"
  target_setText _ _ _ := rfl
  target_evaluate _ _ := rfl
  ids _ := idsFrom 1
  ids_evaluate _ _ := rfl
  debug _ _ := "Symbol"
  debug_evaluate _ _ := rfl
  crate name _ := demoCrate name false
  targetName_crate _ _ := rfl
  externalReference _ _ := none
  symbolSource _ _ := none
  localFn _ _ := none
  resolveExternal _ path :=
    if path = "external/dep-0000000000000001/trait-Shape-0" then some shapeTrait else none
  stripPrefix _ _ := none

def traitHost : SageHost TraitStorage := ⟨PartialMap.empty, ⟨1⟩, "/demo/src"⟩

/-- The items of the trait are listed, and there is no such product. -/
theorem listed_without_product : ¬∀ (host host' : SageHost TraitStorage)
    (pages pages' : List (Provided ProductPage)) (p q : LiveInspectionProvider TraitStorage),
    Run host pages p → Run host' pages' q → SameRevision p q → ∀ path selected,
      (p.symbol path).1 = .ok selected →
        ∀ product, q.HasProduct path product ↔ product ∈ selected.value.ids := by
  intro hclaim
  let path : SymbolPath := "external/dep-0000000000000001/trait-Shape-0"
  have hstart : startsWith path "external/" := by decide
  have he : resolveExternalPath traitHost.texts traitHost.storage path =
      some (shapeTrait.printing fun _ => "Symbol") := by
    rw [resolveExternalPath, if_pos hstart]
    rfl
  have hsome : (selectedSymbol traitHost.texts traitHost.storage (new traitHost).currentDirectory
      path).isSome := by
    rw [selectedSymbol, if_pos hstart, externalSelectedSymbol, he]
    rfl
  obtain ⟨selected, hselected⟩ := symbol_ok (p := new traitHost) (.new _) hsome
  have hagrees := hclaim traitHost traitHost [] [] (new traitHost) (new traitHost) .new .new
    ⟨rfl, .inl ⟨[], rfl⟩⟩ path selected hselected
  obtain ⟨e, he', -, hids⟩ := external_ids hstart
    (selected_of_symbol (p := new traitHost) (.new _) (.refl _) hselected)
  obtain rfl := Option.some.inj (he.symm.trans he')
  have hitems := (hagrees "items").mpr (by
    rw [hids]
    exact mem_externalProductCatalog.mpr (.inr (.inr ⟨rfl, by decide⟩)))
  rw [hasProduct_external (q := new traitHost) (.new _) he' rfl hstart,
    externalProduct_isSome he' rfl] at hitems
  rcases hitems with hid | ⟨hid, -⟩ | ⟨-, -, hnone⟩
  · exact absurd hid (by decide)
  · exact absurd hid (by decide)
  · cases hnone

end Sage.Inspector
