import Sage.Inspector.Product
import Sage.Library.Numbered

/-!
# Inspector — canonical symbol paths

A symbol of the local crate is named by the path of its segments from the crate root.  Three walks
compute or read such paths: the directory from the root down, the reference to one symbol from it
up and down again, and the replay of one path.

* `LocalCrate` — the symbols of a crate with what owns them.
* `walkSymbols`, `resolveLocalSymbol`, `findLocalReference` — the three walks.
-/

namespace Sage.Inspector

inductive SymbolKind where
  | fn | struct | enum | variant | variantCtor | trait | typeAlias | const | static | impl | mod
  | macroDef | use | intrinsicType | macroInvocation
deriving DecidableEq

/-- The kind as shown to the user, and how the segments of its symbols start. -/
def SymbolKind.parts : SymbolKind → String × String
  | fn => ("function", "value-fn")
  | struct => ("struct", "type-struct")
  | enum => ("enum", "type-enum")
  | variant => ("variant", "type-variant")
  | variantCtor => ("variant constructor", "value-variant-ctor")
  | trait => ("trait", "type-trait")
  | typeAlias => ("type alias", "type-alias")
  | const => ("constant", "value-const")
  | static => ("static", "value-static")
  | impl => ("impl", "impl")
  | mod => ("module", "type-module")
  | macroDef => ("macro", "macro-def")
  | use => ("use", "use")
  | intrinsicType => ("intrinsic type", "type-intrinsic")
  | macroInvocation => ("macro invocation", "macro-invocation")

/-- A name that the lexer can produce has no hyphen and no space in it. -/
structure Identifier where
  text : String
  hyphen_notMem : '-' ∉ text.toList
  space_notMem : ' ' ∉ text.toList

/-- What the syntax of an item feeds to a hasher: words, interned names and tracked symbols, and
entries of its arena, which feed the hash they were stored with. -/
inductive HashInput where
  | word (w : UInt64)
  | name (text : String)
  | symbol (symbol : Symbol)
  | entry (children : List HashInput)

/-- The ids that a host gave to interned names and tracked symbols, in the order it met them. -/
structure HostIds where
  name : String → UInt64
  symbol : Symbol → UInt64

/-- The hash function of `rustc-hash`. -/
class FxHasher where
  hash : List UInt64 → UInt64

mutual

def HashInput.value [FxHasher] (ids : HostIds) : HashInput → UInt64
  | .word w => w
  | .name text => ids.name text
  | .symbol s => ids.symbol s
  | .entry children => FxHasher.hash (HashInput.values ids children)

def HashInput.values [FxHasher] (ids : HostIds) : List HashInput → List UInt64
  | [] => []
  | input :: inputs => input.value ids :: HashInput.values ids inputs

end

/-- Whether a symbol has a span, and whether its source was generated. -/
inductive SpanSource where
  | none
  | sourceFile
  | generated

structure SymbolData where
  kind : SymbolKind
  external : Bool
  ident : Identifier
  span : SpanSource
  /-- What `stable_symbol_hash` reads of an impl or a use. -/
  syntaxHash : List HashInput
  associatedOwner : Option Symbol
  /-- The module of the scope, which for a module is that of its parent. -/
  scopeModule : Option Symbol
  parentEnum : Option Symbol

structure SymbolTable where
  targetName : String
  root : Symbol
  data : Symbol → SymbolData
  /-- Expanded module items, variants or associated items. -/
  members : Symbol → List Symbol
  completeness : Symbol → ChildCompleteness

structure CanonicalChild where
  symbol : Symbol
  label : String
  kind : String
  segment : String

def lowerHexDigit (n : Nat) : Char := if n < 10 then Char.ofNat (48 + n) else Char.ofNat (87 + n)

/-- `{:x}` of the lowest digits of a number. -/
def hexDigits : Nat → Nat → List Char
  | 0, _ => []
  | k + 1, n => hexDigits k (n / 16) ++ [lowerHexDigit (n % 16)]

def safeSegment (value : String) : String := percentEncode value

namespace SymbolTable

/-- The local children of a symbol, and which module they are the items of. -/
def ownedSymbolChildren (t : SymbolTable) (s : Symbol) : Option (List Symbol × Option Symbol) :=
  if (t.data s).external then none
  else
    match (t.data s).kind with
    | .mod => some (t.members s, some s)
    | .enum | .trait | .impl => some (t.members s, none)
    | .fn | .struct | .variant | .variantCtor | .typeAlias | .const | .static | .macroDef | .use
    | .intrinsicType | .macroInvocation => none

def directSymbolChildren (t : SymbolTable) (s : Symbol) : List Symbol :=
  ((t.ownedSymbolChildren s).map Prod.fst).getD []

def localSymbolOwner (t : SymbolTable) (s : Symbol) : Option Symbol :=
  if (t.data s).external then none
  else
    match (t.data s).kind with
    | .fn | .typeAlias | .const => (t.data s).associatedOwner.or (t.data s).scopeModule
    | .struct | .enum | .trait | .static | .impl | .macroDef | .use | .macroInvocation | .mod =>
        (t.data s).scopeModule
    | .variant | .variantCtor => (t.data s).parentEnum
    | .intrinsicType => none

/-- The name of a symbol, which impls, uses and macro invocations do not have. -/
def symbolName (t : SymbolTable) (s : Symbol) : Option String :=
  match (t.data s).kind with
  | .impl | .use | .macroInvocation => none
  | .fn | .struct | .enum | .variant | .variantCtor | .trait | .typeAlias | .const | .static | .mod
  | .macroDef | .intrinsicType => some (t.data s).ident.text

def stableSymbolHash [FxHasher] (t : SymbolTable) (ids : HostIds) (s : Symbol) : UInt64 :=
  match (t.data s).kind with
  | .impl | .use =>
      if (t.data s).external then FxHasher.hash [ids.symbol s]
      else FxHasher.hash (HashInput.values ids (t.data s).syntaxHash)
  | .fn | .struct | .enum | .variant | .variantCtor | .trait | .typeAlias | .const | .static | .mod
  | .macroDef | .intrinsicType | .macroInvocation => FxHasher.hash [ids.symbol s]

/-- The label of a symbol before that of an impl is replaced. -/
@[grind =] def label (t : SymbolTable) (s : Symbol) : String :=
  (t.symbolName s).getD ((t.data s).kind.parts.1 ++ " item")

/-- The segment of the symbol is made from its hash. -/
def UsesHash (t : SymbolTable) (s : Symbol) : Prop :=
  t.label s = (t.data s).kind.parts.1 ++ " item"

instance (t : SymbolTable) (s : Symbol) : Decidable (t.UsesHash s) :=
  inferInstanceAs (Decidable (_ = _))

def displayLabel (t : SymbolTable) (s : Symbol) : String :=
  if (t.data s).kind.parts.1 = "impl" then "impl item" else t.label s

def baseSegment [FxHasher] (t : SymbolTable) (ids : HostIds) (s : Symbol) : String :=
  (t.data s).kind.parts.2 ++ "-" ++
    if t.UsesHash s then String.ofList (hexDigits 16 (t.stableSymbolHash ids s).toNat)
    else safeSegment (t.label s)

/-- Label, kind and the segment that equally named siblings share. -/
def symbolIdentityParts [FxHasher] (t : SymbolTable) (ids : HostIds) (s : Symbol) :
    String × String × String :=
  (t.displayLabel s, (t.data s).kind.parts.1, t.baseSegment ids s)

section Hosted

variable [FxHasher]

def canonicalChildrenFrom (t : SymbolTable) (ids : HostIds) (occurrences : PartialMap String Nat) :
    List Symbol → List CanonicalChild
  | [] => []
  | s :: symbols =>
      if (t.data s).external then t.canonicalChildrenFrom ids occurrences symbols
      else
        let (label, kind, baseSegment) := t.symbolIdentityParts ids s
        let occurrence := (occurrences baseSegment).getD 0
        let segment :=
          if occurrence = 0 then baseSegment else baseSegment ++ "-duplicate-" ++ occurrence.repr
        ⟨s, label, kind, segment⟩ ::
          t.canonicalChildrenFrom ids (occurrences.insert baseSegment (occurrence + 1)) symbols

def canonicalChildren (t : SymbolTable) (ids : HostIds) (symbols : List Symbol) :
    List CanonicalChild :=
  t.canonicalChildrenFrom ids PartialMap.empty symbols

def rootPath (t : SymbolTable) : SymbolPath := "local/" ++ safeSegment t.targetName

def presentation (t : SymbolTable) (s : Symbol) (kind : String) : SymbolPresentation :=
  ⟨some ("Local " ++ kind),
    match (t.data s).span with
    | .none => []
    | .sourceFile => [⟨"Source-written", "neutral"⟩]
    | .generated => [⟨"Generated", "accent"⟩]⟩

def moduleChildCompleteness (t : SymbolTable) (module : Symbol) : ChildCompleteness :=
  if (t.data module).external then .notApplicable else t.completeness module

def summary (t : SymbolTable) (parentPath parentDisplay : String) (child : CanonicalChild) :
    SymbolSummary where
  path := parentPath ++ "/" ++ child.segment
  parent := some parentPath
  label := child.label
  displayPath := parentDisplay ++ "::" ++ child.label
  searchText := child.label ++ " " ++ (parentDisplay ++ "::" ++ child.label) ++ " " ++ child.kind
  presentation := t.presentation child.symbol child.kind
  children :=
    match t.ownedSymbolChildren child.symbol with
    | none => .notApplicable
    | some (_, none) => .complete
    | some (_, some module) => t.moduleChildCompleteness module

def rootSummary (t : SymbolTable) : SymbolSummary where
  path := t.rootPath
  parent := none
  label := t.targetName
  displayPath := t.targetName
  searchText := t.targetName ++ " crate"
  presentation := ⟨some "Local crate", []⟩
  children := t.moduleChildCompleteness t.root

/-- The child with a segment, then its child with the next one, and so on. -/
def resolveSegments (t : SymbolTable) (ids : HostIds) :
    List Symbol → Option Symbol → List String → Option Symbol
  | _, current, [] => current
  | children, _, expectedSegment :: segments => do
      let child ← (t.canonicalChildren ids children).find? (·.segment = expectedSegment)
      t.resolveSegments ids (t.directSymbolChildren child.symbol) (some child.symbol) segments

def resolveLocalSymbol (t : SymbolTable) (ids : HostIds) (path : SymbolPath) : Option Symbol :=
  if startsWith path (t.rootPath ++ "/") then
    let descendants := path.toList.drop (t.rootPath ++ "/").toList.length
    t.resolveSegments ids (t.members t.root) none
      ((descendants.splitOn '/').map String.ofList)
  else none

/-- The owners of a symbol up to the root, before the symbols already found.  The chain may have
256 symbols, which the number of steps allows. -/
def ownerChain (t : SymbolTable) : Nat → Symbol → List Symbol → Option (List Symbol)
  | 0, _, _ => none
  | steps + 1, current, chain =>
      if current = t.root then some chain
      else do
        let owner ← t.localSymbolOwner current
        t.ownerChain steps owner (owner :: chain)

def followChain (t : SymbolTable) (ids : HostIds) :
    Symbol → String → Option CanonicalChild → List Symbol → Option (String × Option CanonicalChild)
  | _, path, finalChild, [] => some (path, finalChild)
  | parent, path, _, s :: symbols => do
      let child ← (t.canonicalChildren ids (t.directSymbolChildren parent)).find? (·.symbol = s)
      t.followChain ids s (path ++ "/" ++ child.segment) (some child) symbols

def findLocalReference (t : SymbolTable) (ids : HostIds) (target : Symbol) :
    Option SymbolReference :=
  if target = t.root then some ⟨t.rootPath, t.targetName, ⟨some "Local crate", []⟩⟩
  else do
    let chain ← t.ownerChain 256 target [target]
    let (path, finalChild) ← t.followChain ids t.root t.rootPath none (chain.drop 1)
    let child ← finalChild
    return ⟨path, child.label, t.presentation child.symbol child.kind⟩

end Hosted

end SymbolTable

/-- The symbols of a crate: what a symbol lists as its children is owned by it, every symbol is
listed once, and nothing contains itself. -/
structure LocalCrate extends SymbolTable where
  height : Symbol → Nat
  root_module : (data root).kind = .mod ∧ (data root).external = false
  root_owner : toSymbolTable.localSymbolOwner root = none
  child_owner : ∀ s, ∀ c ∈ toSymbolTable.directSymbolChildren s, (data c).external = false →
    toSymbolTable.localSymbolOwner c = some s
  children_nodup : ∀ s, (toSymbolTable.directSymbolChildren s).Nodup
  height_lt : ∀ s, ∀ c ∈ toSymbolTable.directSymbolChildren s, height c < height s

namespace SymbolTable

variable [FxHasher] {t : SymbolTable} {ids : HostIds} {child : CanonicalChild}

/-- A canonical child is one of the symbols, with what identifies it. -/
theorem mem_canonicalChildrenFrom : ∀ {symbols : List Symbol} {occurrences : PartialMap String Nat},
    child ∈ t.canonicalChildrenFrom ids occurrences symbols →
      child.symbol ∈ symbols ∧ (t.data child.symbol).external = false ∧
        child.label = t.displayLabel child.symbol ∧
          child.kind = (t.data child.symbol).kind.parts.1
  | [], _, h => by simp [canonicalChildrenFrom] at h
  | s :: symbols, occurrences, h => by
      rw [canonicalChildrenFrom] at h
      split at h
      · obtain ⟨hmem, hrest⟩ := mem_canonicalChildrenFrom h
        exact ⟨List.mem_cons_of_mem _ hmem, hrest⟩
      · rename_i hlocal
        rcases List.mem_cons.mp h with rfl | h
        · exact ⟨List.mem_cons_self, by simpa using hlocal, rfl, rfl⟩
        · obtain ⟨hmem, hrest⟩ := mem_canonicalChildrenFrom h
          exact ⟨List.mem_cons_of_mem _ hmem, hrest⟩

theorem mem_canonicalChildren {symbols : List Symbol}
    (h : child ∈ t.canonicalChildren ids symbols) :
    child.symbol ∈ symbols ∧ (t.data child.symbol).external = false ∧
      child.label = t.displayLabel child.symbol ∧
        child.kind = (t.data child.symbol).kind.parts.1 :=
  mem_canonicalChildrenFrom h

end SymbolTable

namespace LocalCrate

variable [FxHasher]

/-- The symbols below one, each before what it contains. -/
def walkSymbols (c : LocalCrate) (ids : HostIds) (parent : Symbol)
    (parentPath parentDisplay : String) : List (Symbol × SymbolSummary) :=
  (c.canonicalChildren ids (c.directSymbolChildren parent)).attach.flatMap fun child =>
    (child.1.symbol, c.summary parentPath parentDisplay child.1) ::
      c.walkSymbols ids child.1.symbol (parentPath ++ "/" ++ child.1.segment)
        (parentDisplay ++ "::" ++ child.1.label)
termination_by c.height parent
decreasing_by
  exact c.height_lt parent _ (SymbolTable.mem_canonicalChildren child.2).1

/-- The symbols of the crate, without the root. -/
def indexedSymbols (c : LocalCrate) (ids : HostIds) : List (Symbol × SymbolSummary) :=
  c.walkSymbols ids c.root c.rootPath c.targetName

end LocalCrate

end Sage.Inspector
