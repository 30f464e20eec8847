import Sage.Inspector.Paths
import Sage.Inspector.Erasure
import Sage.Inspector.Provider

/-!
# Inspector — the queries of a workspace

What the queries answer about a workspace is determined by its sources, except that an answer may
have ids in it: those that are hashed into the segment of an item, and those that are printed where
a symbol has no reference.

* `Workspace` — the sources, and what a host adds to them.
* `SameSources` — two hosts of the same sources that hash the same items alike.
* `identityProduct_congr` — two hosts of the same sources show the same product.
-/

namespace Sage.Inspector

def LocalFn.printing (debug : Symbol → String) (f : LocalFn) : LocalFn :=
  ⟨f.cst.printing debug, f.sig.printing debug, f.body.printing debug, f.diagnostics.printing debug⟩

def External.printing (debug : Symbol → String) (e : External) : External :=
  { e with
    signature := e.signature.map (Reflectable.printing debug)
    items := e.items.map (Reflectable.printing debug) }

/-- The storage of a host and the workspace it is about.  In one revision a name and a symbol have
one id, which `ids` says also of those that the host has not met yet. -/
class Workspace (σ : Type) where
  currentRevision : σ → Nat
  setText : σ → String → String → σ
  evaluate : σ → Evaluation → σ
  currentRevision_setText : ∀ s path text, currentRevision s < currentRevision (setText s path text)
  currentRevision_evaluate : ∀ s e, currentRevision (evaluate s e) = currentRevision s
  /-- The name of the crate that Cargo builds. -/
  target : σ → String
  target_setText : ∀ s path text, target (setText s path text) = target s
  target_evaluate : ∀ s e, target (evaluate s e) = target s
  ids : σ → HostIds
  ids_evaluate : ∀ s e, ids (evaluate s e) = ids s
  /-- How a symbol is printed where it has no reference. -/
  debug : σ → Symbol → String
  debug_evaluate : ∀ s e, debug (evaluate s e) = debug s
  crate : String → SourceTexts → LocalCrate
  targetName_crate : ∀ name texts, (crate name texts).targetName = name
  externalReference : SourceTexts → Symbol → Option SymbolReference
  symbolSource : SourceTexts → Symbol → Option SymbolSource
  localFn : SourceTexts → Symbol → Option LocalFn
  resolveExternal : SourceTexts → String → Option External
  stripPrefix : String → String → Option String

variable {σ : Type} [Workspace σ] [FxHasher]

open Workspace

def crateOf (texts : SourceTexts) (storage : σ) : LocalCrate := crate σ (target storage) texts

instance : Queries σ where
  currentRevision := currentRevision
  setText := setText
  evaluate := evaluate
  currentRevision_setText := currentRevision_setText
  currentRevision_evaluate := currentRevision_evaluate
  rootSummary texts storage := (crateOf texts storage).rootSummary
  walkSymbols texts storage := (crateOf texts storage).indexedSymbols (ids storage)
  resolveLocalSymbol texts storage := (crateOf texts storage).resolveLocalSymbol (ids storage)
  findReference texts storage symbol :=
    if symbol.family = "external-symbol" then externalReference σ texts symbol
    else (crateOf texts storage).findLocalReference (ids storage) symbol
  symbolSource texts _ := symbolSource σ texts
  localFn texts storage symbol :=
    (localFn σ texts symbol).map (LocalFn.printing (debug storage))
  resolveExternal texts storage path :=
    (resolveExternal σ texts path).map (External.printing (debug storage))
  stripPrefix := stripPrefix σ

/-- Two storages of one workspace with the same sources, which hash its items alike. -/
structure SameSources (texts : SourceTexts) (s s' : σ) : Prop where
  target : target s = target s'
  alike : (crateOf texts s).HashesAlike (ids s) (ids s')

namespace SameSources

variable {texts : SourceTexts} {s s' : σ}

omit [FxHasher] in
theorem crateOf_eq (h : Workspace.target s = Workspace.target s') :
    crateOf texts s = crateOf texts s' := by
  rw [crateOf, crateOf, h]

theorem evaluate_left (s : σ) (e : Evaluation) : SameSources texts (Workspace.evaluate s e) s where
  target := target_evaluate s e
  alike := by
    rw [ids_evaluate]
    exact .refl _

theorem refl (s : σ) : SameSources texts s s := ⟨rfl, .refl _⟩

theorem symm (h : SameSources texts s s') : SameSources texts s' s where
  target := h.target.symm
  alike := by
    rw [← crateOf_eq h.target]
    exact fun _ _ hs huse => (h.alike hs huse).symm

theorem trans {s'' : σ} (h : SameSources texts s s') (h' : SameSources texts s' s'') :
    SameSources texts s s'' where
  target := h.target.trans h'.target
  alike := by
    have halike := h'.alike
    rw [← crateOf_eq h.target] at halike
    exact fun _ _ hs huse => (h.alike hs huse).trans (halike hs huse)

theorem walkSymbols_eq (h : SameSources texts s s') :
    Queries.walkSymbols texts s = Queries.walkSymbols texts s' := by
  have hwalk := h.alike.walkSymbols_eq .root (crateOf texts s).rootPath (crateOf texts s).targetName
  calc (crateOf texts s).indexedSymbols (ids s)
      = (crateOf texts s).indexedSymbols (ids s') := hwalk
    _ = (crateOf texts s').indexedSymbols (ids s') := by rw [crateOf_eq h.target]

theorem resolveLocalSymbol_eq (h : SameSources texts s s') (path : SymbolPath) :
    Queries.resolveLocalSymbol texts s path = Queries.resolveLocalSymbol texts s' path := by
  calc (crateOf texts s).resolveLocalSymbol (ids s) path
      = (crateOf texts s).resolveLocalSymbol (ids s') path := h.alike.resolveLocalSymbol_eq path
    _ = (crateOf texts s').resolveLocalSymbol (ids s') path := by rw [crateOf_eq h.target]

theorem findReference_eq (h : SameSources texts s s') (symbol : Symbol) :
    Queries.findReference texts s symbol = Queries.findReference texts s' symbol := by
  have hlocal : (crateOf texts s).findLocalReference (ids s) symbol =
      (crateOf texts s').findLocalReference (ids s') symbol := by
    rw [h.alike.findLocalReference_eq, crateOf_eq h.target]
  exact if_congr Iff.rfl rfl hlocal

theorem buildSymbolDirectory_eq (h : SameSources texts s s') :
    buildSymbolDirectory texts s = buildSymbolDirectory texts s' := by
  have hroot : Queries.rootSummary texts s = Queries.rootSummary texts s' :=
    congrArg (·.rootSummary) (crateOf_eq h.target)
  simp only [buildSymbolDirectory, h.walkSymbols_eq, hroot]

end SameSources

/-! ### Pages up to handles -/

mutual

def RenderNode.erased : RenderNode → RenderNode
  | .group layout children => .group layout (RenderNode.erasedChildren children)
  | .heading level content => .heading level content
  | .text content => .text content
  | .code language content => .code language content
  | .notice tone title content => .notice tone title content
  | .navigation target => .navigation target
  | .value shown => .value shown.erased

def RenderNode.erasedChildren : List RenderNode → List RenderNode
  | [] => []
  | child :: children => child.erased :: RenderNode.erasedChildren children

end

/-- A page with its handles replaced by the empty one. -/
def ProductPage.erased (page : ProductPage) : ProductPage :=
  { page with content := page.content.erased }

/-- The value of a function that a product shows. -/
def LocalFn.view (f : LocalFn) : ProductId → Option Reflectable
  | "concrete-ir" => some f.cst
  | "signature" => some f.sig
  | "typed-ir" => some f.body
  | "diagnostics" => some f.diagnostics
  | _ => none

def External.view (e : External) : ProductId → Option Reflectable
  | "signature" => e.signature
  | "items" => e.items
  | _ => none

section Products

variable {texts : SourceTexts} {s s' : σ} {d d' : SymbolDirectory} {path : SymbolPath}
  {product : ProductId}

theorem reflectedProduct_congr (id : ProductId) (title p q : String)
    {references references' : PartialMap Symbol SymbolReference} {value : Reflectable}
    (hkeys : ∀ key ∈ value.symbols, SameSymbol (resolver texts s references)
      (resolver texts s' references') (debug s) (debug s') key) :
    (reflectedProduct texts s id title (value.printing (debug s)) p references).page.erased =
      (reflectedProduct texts s' id title (value.printing (debug s')) q references').page.erased := by
  have h := ReflectionContext.reflected_congr 96 25000 p q hkeys
  simp only [reflectedProduct, ProductPage.erased, RenderNode.erased, h]

theorem externalProduct_congr (p q : String)
    (hkeys : ∀ e, resolveExternal σ texts path = some e → ∀ value, e.view product = some value →
      ∀ key ∈ value.symbols, SameSymbol (resolver texts s PartialMap.empty)
        (resolver texts s' PartialMap.empty) (debug s) (debug s') key) :
    (externalProduct texts s path product p).map (·.page.erased) =
      (externalProduct texts s' path product q).map (·.page.erased) := by
  have hexternal (storage : σ) : resolveExternalPath texts storage path =
      if startsWith path "external/" then
        (resolveExternal σ texts path).map (External.printing (debug storage)) else none := rfl
  rw [externalProduct, externalProduct, hexternal, hexternal]
  split
  · cases he : resolveExternal σ texts path with
    | none => rfl
    | some e =>
        simp only [Option.map_some, Option.bind_eq_bind, Option.bind_some]
        split
        · rfl
        · have hview : e.view "signature" = e.signature := rfl
          cases ht : External.signatureTitle e.kind with
          | none => simp [External.printing, ht]
          | some title =>
              cases hs : e.signature with
              | none => simp [External.printing, ht, hs]
              | some value =>
                  have hpage := reflectedProduct_congr "signature" title p q
                    (hkeys e he value (hview.trans hs))
                  simp [External.printing, ht, hs, hpage]
        · have hview : e.view "items" = e.items := rfl
          cases hi : e.items with
          | none => simp [External.printing, hi]
          | some value =>
              have hpage := reflectedProduct_congr "items" "External children" p q
                (hkeys e he value (hview.trans hi))
              simp only [External.printing, hi]
              split <;> simp [hpage]
        · rfl
  · rfl

theorem productCatalog_eq (texts : SourceTexts) (s s' : σ) (path : SymbolPath) (symbol : Symbol) :
    productCatalog texts s path symbol = productCatalog texts s' path symbol := by
  have hfn : (Queries.localFn texts s symbol).isSome = (Queries.localFn texts s' symbol).isSome := by
    simp only [Queries.localFn, Option.isSome_map]
  rw [productCatalog, productCatalog, hfn]
  rfl

/-- What a selection says has no ids in it. -/
theorem selectedSymbol_eq (texts : SourceTexts) (s s' : σ) (d : SymbolDirectory)
    (path : SymbolPath) : selectedSymbol texts s d path = selectedSymbol texts s' d path := by
  have hexternal : externalSelectedSymbol texts s path = externalSelectedSymbol texts s' path := by
    simp only [externalSelectedSymbol, resolveExternalPath, Queries.resolveExternal]
    split
    · cases resolveExternal σ texts path <;> rfl
    · rfl
  rw [selectedSymbol, selectedSymbol, hexternal,
    funext (productCatalog_eq texts s s' path)]

/-- The value that a request shows, before its symbols are looked up. -/
def shownValue (texts : SourceTexts) (s : σ) (path : SymbolPath) (product : ProductId) :
    Option Reflectable :=
  if startsWith path "external/" then (resolveExternal σ texts path).bind (·.view product)
  else
    (Queries.resolveLocalSymbol texts s path).bind fun symbol =>
      (localFn σ texts symbol).bind (·.view product)

/-- The references that a request looks its symbols up in first. -/
def shownReferences (d : SymbolDirectory) (path : SymbolPath) : PartialMap Symbol SymbolReference :=
  if startsWith path "external/" then PartialMap.empty else d.references

/-- Two directories say the same of a path, or one lists it and it leads nowhere. -/
def ListsAlike (texts : SourceTexts) (s : σ) (d d' : SymbolDirectory) (path : SymbolPath) : Prop :=
  match d.index.symbols.find? (·.path = path), d'.index.symbols.find? (·.path = path) with
  | some summary, some summary' => summary.displayPath = summary'.displayPath
  | some _, none => Queries.resolveLocalSymbol texts s path = none
  | none, some _ => False
  | none, none => True

theorem identityProduct_congr (h : SameSources texts s s') (p q : String)
    (hlists : ListsAlike texts s d d' path)
    (hkeys : ∀ value, shownValue texts s path product = some value → ∀ key ∈ value.symbols,
      SameSymbol (resolver texts s (shownReferences d path))
        (resolver texts s' (shownReferences d' path)) (debug s) (debug s') key) :
    (identityProduct texts s d path product p).map (·.page.erased) =
      (identityProduct texts s' d' path product q).map (·.page.erased) := by
  have hno (hstart : ¬startsWith path "external/") (storage : σ) (prefixText : String) :
      externalProduct texts storage path product prefixText = none := by
    rw [externalProduct, resolveExternalPath, if_neg hstart]
    rfl
  rw [identityProduct, identityProduct]
  by_cases hstart : startsWith path "external/"
  · rw [if_pos hstart, if_pos hstart]
    refine externalProduct_congr p q fun e he value hvalue key hkey => ?_
    have hk := hkeys value (by rw [shownValue, if_pos hstart, he]; exact hvalue) key hkey
    simp only [shownReferences, if_pos hstart] at hk
    exact hk
  · rw [if_neg hstart, if_neg hstart]
    rw [ListsAlike] at hlists
    cases hd : d.index.symbols.find? (·.path = path) with
    | none =>
        cases hd' : d'.index.symbols.find? (·.path = path) with
        | none => simp only [hno hstart]
        | some summary' =>
            rw [hd, hd'] at hlists
            exact absurd hlists id
    | some summary =>
        cases hd' : d'.index.symbols.find? (·.path = path) with
        | none =>
            rw [hd, hd'] at hlists
            simp [hno hstart, hlists]
        | some summary' =>
            rw [hd, hd'] at hlists
            have hpaths : summary.path = summary'.path := by
              have hp := List.find?_some hd
              have hp' := List.find?_some hd'
              exact (of_decide_eq_true hp).trans (of_decide_eq_true hp').symm
            simp only [← h.resolveLocalSymbol_eq]
            cases hsymbol : Queries.resolveLocalSymbol texts s path with
            | none => rfl
            | some symbol =>
                -- a product that shows a value of a function
                have hfunction (id title : String) (value : LocalFn → Reflectable)
                    (hvalue : ∀ f : LocalFn, f.view product = some (value f))
                    (hprint : ∀ (f : LocalFn) (dbg : Symbol → String),
                      value (f.printing dbg) = (value f).printing dbg) :
                    ((Queries.localFn texts s symbol).map fun f => reflectedProduct texts s id title
                        (value f) p d.references).map (·.page.erased) =
                      ((Queries.localFn texts s' symbol).map fun f => reflectedProduct texts s' id
                        title (value f) q d'.references).map (·.page.erased) := by
                  simp only [Queries.localFn]
                  cases hf : localFn σ texts symbol with
                  | none => rfl
                  | some f =>
                      have hk := hkeys (value f) (by
                        rw [shownValue, if_neg hstart, hsymbol, Option.bind_some, hf,
                          Option.bind_some, hvalue])
                      simp only [shownReferences, if_neg hstart] at hk
                      simp only [Option.map_some, hprint, reflectedProduct_congr id title p q hk]
                simp only [Option.bind_eq_bind, Option.bind_some]
                split
                · simp only [Option.map_some, GeneratedProduct.ofPage, hpaths, hlists]
                · rfl
                · exact hfunction _ _ _ (fun _ => rfl) (fun _ _ => rfl)
                · exact hfunction _ _ _ (fun _ => rfl) (fun _ _ => rfl)
                · exact hfunction _ _ _ (fun _ => rfl) (fun _ _ => rfl)
                · exact hfunction _ _ _ (fun _ => rfl) (fun _ _ => rfl)
                · rfl

end Products

end Sage.Inspector
