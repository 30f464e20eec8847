import Sage.Meta.Lexer

/-!
# Meta — the parser of documents

The second half of the parser reads a document from its tokens, by recursive descent.  Prose is
collected on the way, with the path of the declaration that it describes.

* `Parsed` — a document as the parser gives it, with its descriptions.
* `Parser`, `Parse` — the state of a parser, and what reads from it.
* `document`, `parse` — the functions of the grammar.
-/

namespace Sage.Meta

/-! ### Documents with prose -/

structure ProseBlock where
  text : String
  /-- The contents only, without the quotes. -/
  span : Span
  owner : List String
deriving DecidableEq

namespace Parsed

inductive Header where
  | crate (name purpose : String) (dependencies modules : List String)
  | module (path : Path)

structure ValueField where
  name : String
  description : Option String
  ty : TypeExpr
  span : Span

inductive VariantFields where
  | unit
  | tuple (fields : List TypeExpr)
  | named (fields : List ValueField)

structure Variant where
  name : String
  description : Option String
  fields : VariantFields
  span : Span

inductive TypeShape where
  | opaqueValue
  | struct (fields : List ValueField)
  | enum (variants : List Variant)

structure TypeDecl where
  name : String
  parameters : List String
  description : Option String
  shape : TypeShape
  span : Span

structure Method where
  name : String
  kind : MethodKind
  isOverride : Bool
  result : TypeExpr
  description : String
  envelope : Option (List Effect)
  span : Span

structure Class where
  name : String
  kind : ClassKind
  base : Option Path
  description : String
  fields : List Field
  methods : List Method
  span : Span

inductive Declaration where
  | type (decl : TypeDecl)
  | class (decl : Class)

structure Document where
  file : String
  header : Header
  declarations : List Declaration
  prose : List ProseBlock

end Parsed

/-! ### Reading tokens -/

structure Parser where
  file : String
  tokens : List Token
  cursor : Nat
  len : Nat
  proseBlocks : List ProseBlock
  owner : List String

/-- There is no result where the source would panic, and where a loop runs out of fuel. -/
abbrev Parse (α : Type) := StateT Parser (ExceptT Diagnostic Option) α

/-- The text of a word or a mark. -/
def Token.text : Token → Option String
  | ⟨.word text, _⟩ => some text
  | ⟨.mark text, _⟩ => some text
  | ⟨.prose _, _⟩ => none

namespace Parser

/-- The span of the current token, or the end of the source. -/
def currentSpan (p : Parser) : Span := ((p.tokens[p.cursor]?).map Token.span).getD ⟨p.len, p.len⟩

/-- Whether the current token is a given word or mark. -/
def at_ (p : Parser) (text : String) : Bool := (p.tokens[p.cursor]?).bind Token.text = some text

end Parser

namespace Parse

def stuck {α : Type} : Parse α := fun _ => (none : Option (Except Diagnostic (α × Parser)))

def error {α : Type} (message : String) : Parse α := do
  let p ← get
  throw ⟨p.file, p.currentSpan, message⟩

def span : Parse Span := do return (← get).currentSpan

def at_ (text : String) : Parse Bool := do return (← get).at_ text

def advance : Parse Unit := modify fun p => { p with cursor := p.cursor + 1 }

def eat (text : String) : Parse Bool := do
  if (← get).at_ text then
    advance
    return true
  else return false

def expect (text : String) : Parse Unit := do
  if ← eat text then return () else error ("expected `" ++ text ++ "`")

def word : Parse String := do
  let p ← get
  match p.tokens[p.cursor]? with
  | some ⟨.word text, _⟩ => do
      advance
      return text
  | _ => error "expected identifier"

def prose : Parse String := do
  let p ← get
  match p.tokens[p.cursor]? with
  | some ⟨.prose text, span⟩ => do
      let block : ProseBlock := ⟨text, ⟨span.start + 3, span.stop - 3⟩, p.owner⟩
      set { p with proseBlocks := p.proseBlocks ++ [block], cursor := p.cursor + 1 }
      return text
  | _ => error "expected triple-quoted description"

def optionalProse : Parse (Option String) := do
  let p ← get
  match p.tokens[p.cursor]? with
  | some ⟨.prose _, _⟩ => do return some (← prose)
  | _ => return none

/-- Where the token before the current one ends. -/
def lastStop : Parse Nat := do
  let p ← get
  match p.tokens[p.cursor - 1]? with
  | some token => return token.span.stop
  | none => stuck

/-- Prose that is read here belongs to a declaration. -/
def owned {α : Type} (name : String) (body : Parse α) : Parse α := do
  modify fun p => { p with owner := p.owner ++ [name] }
  let a ← body
  modify fun p => { p with owner := p.owner.dropLast }
  return a

/-- The last prose belongs to a declaration whose name was read after it. -/
def ownLast (name : String) : Parse Unit := do
  let p ← get
  match p.proseBlocks.getLast? with
  | none => stuck
  | some block =>
      set { p with
        proseBlocks := p.proseBlocks.dropLast ++ [{ block with owner := block.owner ++ [name] }] }

/-! ### Lists -/

/-- `while !eat(close)`, with commas between the items. -/
def commaList {α : Type} (close : String) (item : Parse α) : Nat → Parse (List α)
  | 0 => stuck
  | n + 1 => do
      if ← eat close then return []
      else do
        let a ← item
        if ← eat close then return [a]
        else do
          expect ","
          let as ← commaList close item n
          return a :: as

/-- `while !eat(close)`. -/
def block {α : Type} (close : String) (item : Parse α) : Nat → Parse (List α)
  | 0 => stuck
  | n + 1 => do
      if ← eat close then return []
      else do
        let a ← item
        let as ← block close item n
        return a :: as

/-- `while eat(before)`. -/
def wordsAfter (before : String) : Nat → Parse (List String)
  | 0 => stuck
  | n + 1 => do
      if ← eat before then do
        let a ← word
        let as ← wordsAfter before n
        return a :: as
      else return []

/-! ### Types -/

/-- The segment behind `self.`. -/
def selfSegment (root : String) : Parse (List String) :=
  if root = "self" then do
    expect "."
    let segment ← word
    return [segment]
  else return []

def parsePath (localType : Bool) (fuel : Nat) : Parse Path := do
  let start := (← span).start
  let external ← eat "$"
  let name ← word
  let root := if external then "$" ++ name else name
  if !localType ∧ !external ∧ root ≠ "crate" ∧ root ≠ "self" then
    error "paths must start with `crate`, `self`, or `$cratename`"
  else do
    let first ← selfSegment root
    let rest ← wordsAfter "::" fuel
    let stop ← lastStop
    return ⟨root, first ++ rest, ⟨start, stop⟩⟩

def typeArguments (item : Parse TypeExpr) (fuel : Nat) : Parse (List TypeExpr) := do
  if ← eat "<" then commaList ">" item fuel else return []

def typeExpr : Nat → Parse TypeExpr
  | 0 => stuck
  | n + 1 => do
      let start := (← span).start
      if ← eat "(" then do
        let items ← commaList ")" (typeExpr n) n
        let stop ← lastStop
        return .tuple items ⟨start, stop⟩
      else do
        let path ← parsePath true (n + 1)
        let arguments ← typeArguments (typeExpr n) n
        let stop ← lastStop
        return .named path arguments ⟨start, stop⟩

/-- The name of a field, behind its prose. -/
def fieldName : Parse (Option String × String) := do
  let description ← optionalProse
  let name ← word
  if description.isSome then ownLast name else pure ()
  return (description, name)

def valueField (fuel : Nat) : Parse Parsed.ValueField := do
  let span ← span
  let (description, name) ← fieldName
  expect ":"
  let ty ← typeExpr fuel
  return ⟨name, description, ty, span⟩

def valueFields (fuel : Nat) : Parse (List Parsed.ValueField) :=
  commaList "\x7d" (valueField fuel) fuel

def variant (fuel : Nat) : Parse Parsed.Variant := do
  let span ← span
  let name ← word
  let (description, fields) ← owned name do
    if ← eat "(" then do
      let description ← optionalProse
      let fields ← commaList ")" (typeExpr fuel) fuel
      return (description, Parsed.VariantFields.tuple fields)
    else if ← eat "\x7b" then do
      let description ← optionalProse
      let fields ← valueFields fuel
      return (description, Parsed.VariantFields.named fields)
    else do
      let description ← optionalProse
      return (description, Parsed.VariantFields.unit)
  return ⟨name, description, fields, span⟩

def typeParameters (fuel : Nat) : Parse (List String) := do
  if ← eat "<" then do
    let first ← word
    let rest ← wordsAfter "," fuel
    expect ">"
    return first :: rest
  else return []

def typeShape (keyword : String) (fuel : Nat) : Parse Parsed.TypeShape :=
  if keyword = "type" then do
    expect "\x7d"
    return .opaqueValue
  else if keyword = "struct" then do
    let fields ← valueFields fuel
    return .struct fields
  else if keyword = "enum" then do
    let variants ← commaList "\x7d" (variant fuel) fuel
    return .enum variants
  else error "expected type, struct, or enum"

/-- Only an opaque type needs a description. -/
def declarationProse (keyword : String) : Parse (Option String) :=
  if keyword = "type" then do
    let description ← prose
    return some description
  else optionalProse

def typeDeclaration (fuel : Nat) : Parse Parsed.TypeDecl := do
  let span ← span
  let keyword ← word
  let name ← word
  owned name do
    let parameters ← typeParameters fuel
    let braced ← at_ "\x7b"
    -- the compact spelling without braces
    if keyword = "type" ∧ !braced then do
      let description ← prose
      expect ";"
      return ⟨name, parameters, some description, .opaqueValue, span⟩
    else do
      expect "\x7b"
      let description ← declarationProse keyword
      let shape ← typeShape keyword fuel
      return ⟨name, parameters, description, shape, span⟩

/-! ### Classes -/

def effectKind (fuel : Nat) : Parse Effect := do
  if ← eat "invokes" then do
    let path ← parsePath false fuel
    expect "("
    expect ")"
    return .invokes path
  else if ← eat "forbid" then do
    expect "transitive"
    let path ← parsePath false fuel
    return .forbidTransitive path
  else if ← eat "reads" then do
    let path ← parsePath false fuel
    return .reads path
  else do
    expect "creates"
    let name ← word
    expect ":"
    let context ← parsePath false fuel
    return .creates name context

def effect (fuel : Nat) : Parse Effect := do
  let effect ← effectKind fuel
  expect ";"
  return effect

def envelope (fuel : Nat) : Parse (Option (List Effect)) := do
  if ← eat "abstract" then do
    expect ";"
    return none
  else do
    expect "envelope"
    expect "\x7b"
    let effects ← block "\x7d" (effect fuel) fuel
    return some effects

def methodKind : Parse MethodKind := do
  if ← eat "query" then return .query
  else do
    expect "fn"
    return .function

def method (fuel : Nat) : Parse Parsed.Method := do
  let span ← span
  let isOverride ← eat "override"
  let kind ← methodKind
  let name ← word
  owned name do
    expect "("
    expect ")"
    expect "->"
    let result ← typeExpr fuel
    expect "\x7b"
    let description ← prose
    let envelope ← envelope fuel
    expect "\x7d"
    return ⟨name, kind, isOverride, result, description, envelope, span⟩

def fieldKind : Parse (Option FieldKind) := do
  if ← eat "identity" then return some .identity
  else if ← eat "input" then return some .input
  else if ← eat "state" then return some .state
  else return none

def member (fuel : Nat) : Parse (Field ⊕ Parsed.Method) := do
  let span ← span
  match ← fieldKind with
  | some kind => do
      let name ← word
      expect ":"
      let ty ← typeExpr fuel
      expect ";"
      return .inl ⟨name, kind, ty, span⟩
  | none => do
      let method ← method fuel
      return .inr method

def classKind : Parse ClassKind := do
  if ← eat "abstract" then do
    expect "class"
    return .abstract
  else if ← eat "context" then return .context
  else do
    expect "class"
    return .concrete

def baseClass (fuel : Nat) : Parse (Option Path) := do
  if ← eat "extends" then do
    let path ← parsePath false fuel
    return some path
  else return none

def classDeclaration (fuel : Nat) : Parse Parsed.Class := do
  let span ← span
  let kind ← classKind
  let name ← word
  owned name do
    let base ← baseClass fuel
    expect "\x7b"
    let description ← prose
    let members ← block "\x7d" (member fuel) fuel
    return ⟨name, kind, base, description, members.filterMap Sum.getLeft?,
      members.filterMap Sum.getRight?, span⟩

/-! ### Documents -/

/-- A dependency of a crate, or a module. -/
def crateEntry : Parse (String ⊕ String) := do
  if ← eat "depends" then do
    expect "$"
    let name ← word
    return .inl name
  else do
    expect "module"
    let name ← word
    return .inr name

def crateItem : Parse (String ⊕ String) := do
  let item ← crateEntry
  expect ";"
  return item

def header (fuel : Nat) : Parse Parsed.Header := do
  if ← eat "crate" then do
    let name ← word
    expect "\x7b"
    let purpose ← prose
    let items ← block "\x7d" crateItem fuel
    return .crate name purpose (items.filterMap Sum.getLeft?) (items.filterMap Sum.getRight?)
  else do
    expect "module"
    let path ← parsePath false fuel
    expect ";"
    return .module path

def declaration (fuel : Nat) : Parse Parsed.Declaration := do
  let p ← get
  if p.at_ "type" || p.at_ "struct" || p.at_ "enum" then do
    let decl ← typeDeclaration fuel
    return .type decl
  else do
    let decl ← classDeclaration fuel
    return .class decl

def declarations (fuel : Nat) : Nat → Parse (List Parsed.Declaration)
  | 0 => stuck
  | n + 1 => do
      let p ← get
      if p.cursor < p.tokens.length then do
        let decl ← declaration fuel
        let decls ← declarations fuel n
        return decl :: decls
      else return []

def document (fuel : Nat) : Parse Parsed.Document := do
  let header ← header fuel
  let declarations ← declarations fuel fuel
  let p ← get
  return ⟨p.file, header, declarations, p.proseBlocks⟩

end Parse

/-- Parse one crate manifest or module. -/
def parse (debug : Char → String) (file source : String) :
    Option (Except Diagnostic Parsed.Document) :=
  let len := Text.byteLength source.toList
  match scan debug file len 0 source.toList with
  | .error d => some (.error d)
  | .ok tokens =>
      let result : Option (Except Diagnostic (Parsed.Document × Parser)) :=
        Parse.document (tokens.length + 1) ⟨file, tokens, 0, len, [], []⟩
      result.map (Except.map Prod.fst)

end Sage.Meta
