import Sage.Inspector.Reflection

/-!
# Inspector — symbols and products

What the inspector shows of one symbol.  The tracked queries of the compiler are a parameter; the
directory of symbols, the selection of a symbol and the pages of its products are built from their
results.

* `Queries` — what the queries compute from the source texts, and the storage they compute it in.
* `SymbolDirectory`, `buildSymbolDirectory` — the eager index of the local crate.
* `selectedSymbol`, `identityProduct` — the two requests about one symbol.
-/

namespace Sage.Inspector

abbrev SymbolPath := String
abbrev ProductId := String

/-- A symbol is known by its reflection key, which determines it. -/
abbrev Symbol := ReferenceKey

structure Issue where
  code : String
  message : String
deriving DecidableEq

inductive ChildCompleteness where
  | complete
  | notApplicable
  | incomplete (reason : Issue)
deriving DecidableEq

structure SymbolSummary where
  path : SymbolPath
  parent : Option SymbolPath
  label : String
  displayPath : String
  searchText : String
  presentation : SymbolPresentation
  children : ChildCompleteness
deriving DecidableEq

structure SymbolIndex where
  root : SymbolPath
  symbols : List SymbolSummary

structure ProductDescriptor where
  id : ProductId
  label : String
  href : String

structure SelectedSymbol where
  path : SymbolPath
  label : String
  displayPath : String
  presentation : SymbolPresentation
  parent : Option SymbolReference
  products : List ProductDescriptor

inductive GroupLayout where
  | block
  | row
  | columns

inductive NoticeTone where
  | neutral
  | info
  | warning
  | error

inductive RenderNode where
  | group (layout : GroupLayout) (children : List RenderNode)
  | heading (level : Nat) (text : String)
  | text (text : String)
  | code (language text : String)
  | notice (tone : NoticeTone) (title : Option String) (text : String)
  | navigation (target : SymbolReference)
  | value (value : ValueNode)

structure ProductPage where
  id : ProductId
  title : String
  content : RenderNode

inductive SymExtKind where
  | fn | struct | tupleStructCtor | enum | variant | variantCtor | trait | impl | mod | typeAlias
  | const | static | macroDef | use | other
deriving DecidableEq

def SymExtKind.debug : SymExtKind → String
  | fn => "Fn"
  | struct => "Struct"
  | tupleStructCtor => "TupleStructCtor"
  | enum => "Enum"
  | variant => "Variant"
  | variantCtor => "VariantCtor"
  | trait => "Trait"
  | impl => "Impl"
  | mod => "Mod"
  | typeAlias => "TypeAlias"
  | const => "Const"
  | static => "Static"
  | macroDef => "MacroDef"
  | use => "Use"
  | other => "Other"

/-- An external symbol with what its metadata says about it. -/
structure External where
  kind : SymExtKind
  reference : Option SymbolReference
  parent : Option SymbolReference
  defPath : Option String
  signature : Option Reflectable
  items : Option Reflectable

/-- Where the text of a symbol comes from. -/
inductive SymbolSource where
  | generated
  | sourceFile (snippet : String)

/-- A local function, with the values its tracked queries return. -/
structure LocalFn where
  cst : Reflectable
  sig : Reflectable
  body : Reflectable
  diagnostics : Reflectable

/-- The text of each source file, by its path. -/
abbrev SourceTexts := PartialMap String String

/-- What can be evaluated between two edits. -/
inductive Evaluation where
  | directory
  | selection (path : SymbolPath)
  | product (symbol : SymbolPath) (product : ProductId)

/-- Salsa's storage `σ` and the queries of the compiler.  A query depends on the source texts; that
it also takes the storage is because it may return the ids of interned and tracked values.  A write
to an input starts a new revision, and evaluation starts none. -/
class Queries (σ : Type) where
  currentRevision : σ → Nat
  setText : σ → String → String → σ
  evaluate : σ → Evaluation → σ
  currentRevision_setText : ∀ s path text, currentRevision s < currentRevision (setText s path text)
  currentRevision_evaluate : ∀ s e, currentRevision (evaluate s e) = currentRevision s
  rootSummary : SourceTexts → σ → SymbolSummary
  walkSymbols : SourceTexts → σ → List (Symbol × SymbolSummary)
  resolveLocalSymbol : SourceTexts → σ → SymbolPath → Option Symbol
  /-- `find_local_reference`, and what the metadata gives for an external symbol. -/
  findReference : SourceTexts → σ → Symbol → Option SymbolReference
  symbolSource : SourceTexts → σ → Symbol → Option SymbolSource
  localFn : SourceTexts → σ → Symbol → Option LocalFn
  /-- The external symbol of a path behind `external/`. -/
  resolveExternal : SourceTexts → σ → String → Option External
  /-- `Path::strip_prefix`, with the source root first. -/
  stripPrefix : String → String → Option String

/-- `str::starts_with`. -/
def startsWith (value start : String) : Bool := start.toList.isPrefixOf value.toList

def hexDigit (n : Nat) : Char := if n < 10 then Char.ofNat (48 + n) else Char.ofNat (55 + n)

/-- One byte of a percent-encoded path. -/
def percentByte (byte : UInt8) : List Char :=
  let c := Char.ofNat byte.toNat
  if byte.toNat < 128 ∧ (c.isAlphanum ∨ c ∈ ['-', '_', '.', '~']) then [c]
  else ['%', hexDigit (byte.toNat / 16), hexDigit (byte.toNat % 16)]

def percentEncode (value : String) : String :=
  String.ofList (value.toList.flatMap fun c => (String.utf8EncodeChar c).flatMap percentByte)

structure SymbolDirectory where
  index : SymbolIndex
  locators : PartialMap SymbolPath Symbol
  references : PartialMap Symbol SymbolReference

/-- A product and the pages its content refers to. -/
structure GeneratedProduct where
  page : ProductPage
  continuations : PartialMap String (List ValueNode)

def GeneratedProduct.ofPage (page : ProductPage) : GeneratedProduct := ⟨page, PartialMap.empty⟩

def productDescriptor (path : SymbolPath) (id : ProductId) (label : String) : ProductDescriptor :=
  ⟨id, label, "/api/v1/product?symbol=" ++ percentEncode path ++ "&product=" ++ id⟩

def SymbolSummary.reference (summary : SymbolSummary) : SymbolReference :=
  ⟨summary.path, summary.label, summary.presentation⟩

section Requests

variable {σ : Type} [Queries σ]

open Queries

def buildSymbolDirectory (texts : SourceTexts) (storage : σ) : SymbolDirectory :=
  let root := rootSummary texts storage
  let symbols := walkSymbols texts storage
  { index := ⟨root.path, root :: symbols.map Prod.snd⟩
    locators := symbols.foldl (fun m s => m.insert s.2.path s.1) PartialMap.empty
    references := symbols.foldl (fun m s => m.insert s.1 s.2.reference) PartialMap.empty }

def productCatalog (texts : SourceTexts) (storage : σ) (path : SymbolPath) (symbol : Symbol) :
    List ProductDescriptor :=
  [productDescriptor path "identity" "Identity"] ++
    (if (symbolSource texts storage symbol).isSome then [productDescriptor path "source" "Source"]
      else []) ++
    (if (localFn texts storage symbol).isSome then
      [productDescriptor path "concrete-ir" "Concrete IR",
        productDescriptor path "signature" "Signature",
        productDescriptor path "diagnostics" "Diagnostics",
        productDescriptor path "typed-ir" "Typed IR"]
      else [])

def externalProductCatalog (path : SymbolPath) (kind : SymExtKind) : List ProductDescriptor :=
  [productDescriptor path "identity" "Identity"] ++
    (if kind ∈ [.fn, .trait, .struct, .enum] then [productDescriptor path "signature" "Signature"]
      else []) ++
    (if kind ∈ [.mod, .enum, .trait] then [productDescriptor path "items" "Items"] else [])

def resolveExternalPath (texts : SourceTexts) (storage : σ) (path : SymbolPath) : Option External :=
  if startsWith path "external/" then resolveExternal texts storage path else none

def externalSelectedSymbol (texts : SourceTexts) (storage : σ) (path : SymbolPath) :
    Option SelectedSymbol := do
  let resolved ← resolveExternalPath texts storage path
  let reference ← resolved.reference
  return ⟨reference.path, reference.label, resolved.defPath.getD reference.label,
    reference.presentation, resolved.parent, externalProductCatalog path resolved.kind⟩

def selectedSymbol (texts : SourceTexts) (storage : σ) (directory : SymbolDirectory)
    (path : SymbolPath) : Option SelectedSymbol :=
  if startsWith path "external/" then externalSelectedSymbol texts storage path
  else
    match directory.index.symbols.find? (·.path = path) with
    | none => externalSelectedSymbol texts storage path
    | some summary =>
        let parent := summary.parent.bind fun parent =>
          directory.index.symbols.find? (·.path = parent)
        let products := (directory.locators path).map (productCatalog texts storage path)
        some ⟨summary.path, summary.label, summary.displayPath, summary.presentation,
          parent.map SymbolSummary.reference, products.getD []⟩

/-- The inspector's resolver looks in the directory first. -/
def resolver (texts : SourceTexts) (storage : σ) (references : PartialMap Symbol SymbolReference)
    (symbol : Symbol) : Option SymbolReference :=
  if symbol.family = "external-symbol" then findReference texts storage symbol
  else (references symbol).or (findReference texts storage symbol)

def reflectedProduct (texts : SourceTexts) (storage : σ) (id : ProductId) (title : String)
    (value : Reflectable) (continuationPrefix : String)
    (references : PartialMap Symbol SymbolReference) : GeneratedProduct :=
  let (value, continuations) := ReflectionContext.reflected 96 25000 continuationPrefix
    (resolver texts storage references) value
  ⟨⟨id, title, .value value⟩, continuations⟩

def sourceProduct : SymbolSource → ProductPage
  | .generated => ⟨"source", "Generated source", .notice .info (some "Generated symbol")
      "This symbol was produced by macro expansion; inspect its origin from the identity tree."⟩
  | .sourceFile snippet => ⟨"source", "Source", .code "rust" snippet⟩

/-- The signature of an external symbol, and the title of its page. -/
def External.signatureTitle : SymExtKind → Option String
  | .fn => some "External function signature"
  | .trait => some "External trait signature"
  | .struct | .enum => some "External type signature"
  | .tupleStructCtor | .variant | .variantCtor | .impl | .mod | .typeAlias | .const | .static
  | .macroDef | .use | .other => none

def externalProduct (texts : SourceTexts) (storage : σ) (path : SymbolPath) (product : ProductId)
    (continuationPrefix : String) : Option GeneratedProduct := do
  let external ← resolveExternalPath texts storage path
  match product with
  | "identity" => do
      let reference ← external.reference
      return .ofPage ⟨"identity", "External symbol identity", .value (.record "SymExt"
        [⟨"path", .scalar "CanonicalSymbolPath" (.string reference.path)⟩,
          ⟨"kind", .scalar "SymExtKind" (.string external.kind.debug)⟩])⟩
  | "signature" => do
      let title ← External.signatureTitle external.kind
      let signature ← external.signature
      return reflectedProduct texts storage "signature" title signature continuationPrefix
        PartialMap.empty
  | "items" =>
      if external.kind ∈ [.mod, .enum, .trait] then do
        let items ← external.items
        return reflectedProduct texts storage "items" "External children" items continuationPrefix
          PartialMap.empty
      else none
  | _ => none

def identityProduct (texts : SourceTexts) (storage : σ) (directory : SymbolDirectory)
    (symbolPath : SymbolPath) (product : ProductId) (continuationPrefix : String) :
    Option GeneratedProduct :=
  if startsWith symbolPath "external/" then
    externalProduct texts storage symbolPath product continuationPrefix
  else
    match directory.index.symbols.find? (·.path = symbolPath) with
    | none => externalProduct texts storage symbolPath product continuationPrefix
    | some summary => do
        let symbol ← resolveLocalSymbol texts storage symbolPath
        let function (id title : String) (value : LocalFn → Reflectable) :=
          (localFn texts storage symbol).map fun f =>
            reflectedProduct texts storage id title (value f) continuationPrefix
              directory.references
        match product with
        | "identity" => some (.ofPage ⟨"identity", "Symbol identity", .group .block
            [.heading 2 "Canonical identity", .text summary.path, .text summary.displayPath]⟩)
        | "source" => (symbolSource texts storage symbol).map fun s => .ofPage (sourceProduct s)
        | "concrete-ir" => function "concrete-ir" "Concrete IR" LocalFn.cst
        | "signature" => function "signature" "Checked function signature" LocalFn.sig
        | "typed-ir" => function "typed-ir" "Completed typed body" LocalFn.body
        | "diagnostics" => function "diagnostics" "Diagnostics" LocalFn.diagnostics
        | _ => none

/-! ### Handles in products -/

/-- A handle occurs in the content of a page. -/
inductive RenderNode.Mentions (handle : String) : RenderNode → Prop
  | group {layout : GroupLayout} {children : List RenderNode} {child : RenderNode}
      (hc : child ∈ children) (h : Mentions handle child) : Mentions handle (.group layout children)
  | value {value : ValueNode} (h : value.Mentions handle) : Mentions handle (.value value)

/-- Every handle in a product names one of its pages, and so does every handle in those pages. -/
structure GeneratedProduct.Sound (continuationPrefix : String) (g : GeneratedProduct) : Prop where
  page : ∀ handle, g.page.content.Mentions handle → g.continuations.Has handle
  pages : ∀ handle page, g.continuations handle = some page →
    ∀ node ∈ page, node.MentionsOnly g.continuations.Has
  named : ∀ handle, g.continuations.Has handle →
    ∃ n : Nat, handle = continuationPrefix ++ "_" ++ n.repr

variable {texts : SourceTexts} {storage : σ} {g : GeneratedProduct} {continuationPrefix : String}

omit [Queries σ] in
theorem GeneratedProduct.sound_ofPage {page : ProductPage}
    (h : ∀ handle, ¬page.content.Mentions handle) :
    (GeneratedProduct.ofPage page).Sound continuationPrefix :=
  ⟨fun handle hm => absurd hm (h handle), fun _ _ => nofun,
    fun _ hh => absurd hh PartialMap.not_has_empty⟩

theorem reflectedProduct_sound (id : ProductId) (title : String) (value : Reflectable)
    (references : PartialMap Symbol SymbolReference) :
    (reflectedProduct texts storage id title value continuationPrefix references).Sound
      continuationPrefix := by
  obtain ⟨hpage, hpages, hnamed⟩ := ReflectionContext.reflected_sound (p := continuationPrefix)
    96 25000 (resolver texts storage references) value
  refine ⟨fun handle hm => ?_, hpages, hnamed⟩
  cases hm with
  | value hm => exact hpage handle hm

theorem externalProduct_sound {path : SymbolPath} {product : ProductId}
    (h : externalProduct texts storage path product continuationPrefix = some g) :
    g.Sound continuationPrefix := by
  rw [externalProduct] at h
  obtain ⟨external, -, h⟩ := Option.bind_eq_some_iff.mp h
  split at h
  · obtain ⟨reference, -, h⟩ := Option.bind_eq_some_iff.mp h
    cases h
    refine GeneratedProduct.sound_ofPage fun handle hm => ?_
    cases hm with
    | value hm =>
        refine absurd hm ?_
        have hscalars : ((ValueNode.record "SymExt"
            [⟨"path", .scalar "CanonicalSymbolPath" (.string reference.path)⟩,
              ⟨"kind", .scalar "SymExtKind" (.string external.kind.debug)⟩])).MentionsOnly
                fun _ => False := by simp
        exact hscalars handle
  · obtain ⟨title, -, h⟩ := Option.bind_eq_some_iff.mp h
    obtain ⟨signature, -, h⟩ := Option.bind_eq_some_iff.mp h
    cases h
    exact reflectedProduct_sound ..
  · split at h
    · obtain ⟨items, -, h⟩ := Option.bind_eq_some_iff.mp h
      cases h
      exact reflectedProduct_sound ..
    · cases h
  · cases h

/-- The handles of any product name its own pages. -/
theorem identityProduct_sound {directory : SymbolDirectory} {path : SymbolPath}
    {product : ProductId}
    (h : identityProduct texts storage directory path product continuationPrefix = some g) :
    g.Sound continuationPrefix := by
  rw [identityProduct] at h
  split at h
  · exact externalProduct_sound h
  split at h
  · exact externalProduct_sound h
  obtain ⟨symbol, -, h⟩ := Option.bind_eq_some_iff.mp h
  split at h
  · cases h
    refine GeneratedProduct.sound_ofPage fun handle hm => ?_
    cases hm with
    | group hc hm =>
        simp only [List.mem_cons, List.not_mem_nil, or_false] at hc
        rcases hc with rfl | rfl | rfl <;> cases hm
  · obtain ⟨source, -, rfl⟩ := Option.map_eq_some_iff.mp h
    refine GeneratedProduct.sound_ofPage fun handle hm => ?_
    cases source <;> cases hm
  all_goals
    first
    | cases h
    | obtain ⟨f, -, rfl⟩ := Option.map_eq_some_iff.mp h
      exact reflectedProduct_sound ..

end Requests

end Sage.Inspector
