import Sage.Library.Nesting
import Sage.Meta.Parser

/-!
# Meta — the grammar of documents

What a document is as tokens: which of them are words and marks, where prose stands, and over which
tokens each declaration extends.  A declaration extends from its first token to its last one, the
prose before the name of a field included.

* `Written`, `Describes` — tokens that are given words and marks, and a description.
* `CommaList`, `Block` — the two forms of a list.
* `Parsed.Document.Covers` — the tokens of a document, in its declarations.
-/

namespace Sage.Meta

open Nesting

/-- A token, or a declaration with the tokens that it extends over. -/
abbrev Syntax := Part String Token

/-- Tokens that are given words and marks, in no declaration. -/
def Written (texts : List String) (parts : List Syntax) : Prop :=
  ∃ tokens : List Token, parts = tokens.map Part.token ∧ tokens.map Token.text = texts.map some

/-- A token of prose. -/
def Described (text : String) (parts : List Syntax) : Prop :=
  ∃ span, parts = [.token ⟨.prose text, span⟩]

/-- A description, where there is one. -/
def Describes : Option String → List Syntax → Prop
  | none, parts => parts = []
  | some text, parts => Described text parts

/-- Items with commas between them, maybe one behind the last, and what closes the list. -/
inductive CommaList {α β : Type} (item : α → List β → Prop) (comma close : List β → Prop) :
    List α → List β → Prop
  | close {c : List β} : close c → CommaList item comma close [] c
  | last {a : α} {b c : List β} : item a b → close c → CommaList item comma close [a] (b ++ c)
  | cons {a : α} {as : List α} {b c d : List β} : item a b → comma c →
      CommaList item comma close as d → CommaList item comma close (a :: as) (b ++ (c ++ d))

/-- Items behind each other. -/
inductive Items {α β : Type} (item : α → List β → Prop) : List α → List β → Prop
  | nil : Items item [] []
  | cons {a : α} {as : List α} {b c : List β} : item a b → Items item as c →
      Items item (a :: as) (b ++ c)

/-- Items behind each other, and what closes them. -/
def Block {α β : Type} (item : α → List β → Prop) (close : List β → Prop) (as : List α)
    (b : List β) : Prop :=
  ∃ c d, Items item as c ∧ close d ∧ b = c ++ d

/-! ### Types -/

/-- Words behind a mark each. -/
def afterMarks (mark : String) (words : List String) : List String :=
  words.flatMap fun word => [mark, word]

def Path.Spelled (localType : Bool) (path : Path) (texts : List String) : Prop :=
  ∃ (external : Bool) (name : String) (first rest : List String),
    path.root = (if external then "$" ++ name else name) ∧ path.segments = first ++ rest ∧
      (localType ∨ external ∨ path.root = "crate" ∨ path.root = "self") ∧
      (if path.root = "self" then first.length = 1 else first = []) ∧
      texts = (if external then ["$"] else []) ++
        (name :: (afterMarks "." first ++ afterMarks "::" rest))

inductive TypeExpr.Spelled : TypeExpr → List String → Prop
  | tuple {items : List TypeExpr} {span : Span} {texts : List String} :
      CommaList TypeExpr.Spelled (· = [","]) (· = [")"]) items texts →
        TypeExpr.Spelled (.tuple items span) ("(" :: texts)
  | named {path : Path} {span : Span} {texts : List String} : path.Spelled true texts →
      TypeExpr.Spelled (.named path [] span) texts
  | applied {path : Path} {arguments : List TypeExpr} {span : Span} {texts texts' : List String} :
      path.Spelled true texts →
        CommaList TypeExpr.Spelled (· = [","]) (· = [">"]) arguments texts' →
          TypeExpr.Spelled (.named path arguments span) (texts ++ "<" :: texts')

/-- A list of types behind its opening mark. -/
def TypesSpelled (close : String) (types : List TypeExpr) (texts : List String) : Prop :=
  CommaList TypeExpr.Spelled (· = [","]) (· = [close]) types texts

/-- The parameters of a generic type. -/
def ParametersSpelled : List String → List String → Prop
  | [], texts => texts = []
  | first :: rest, texts => texts = "<" :: first :: (afterMarks "," rest ++ [">"])

namespace Parsed

def ValueField.Covers (field : ValueField) (parts : List Syntax) : Prop :=
  ∃ d w texts, parts = [.declaration field.name (d ++ w)] ∧ Describes field.description d ∧
    field.ty.Spelled texts ∧ Written (field.name :: ":" :: texts) w

def FieldsCover : List ValueField → List Syntax → Prop :=
  CommaList ValueField.Covers (Written [","]) (Written ["\x7d"])

/-- The description and the fields of a variant, behind its name. -/
def VariantFields.Covers (description : Option String) : VariantFields → List Syntax → Prop
  | .unit, parts => Describes description parts
  | .tuple types, parts => ∃ w d v texts, parts = w ++ (d ++ v) ∧ Written ["("] w ∧
      Describes description d ∧ TypesSpelled ")" types texts ∧ Written texts v
  | .named fields, parts => ∃ w d v, parts = w ++ (d ++ v) ∧ Written ["\x7b"] w ∧
      Describes description d ∧ FieldsCover fields v

def Variant.Covers (variant : Variant) (parts : List Syntax) : Prop :=
  ∃ w body, parts = [.declaration variant.name (w ++ body)] ∧ Written [variant.name] w ∧
    variant.fields.Covers variant.description body

/-- The rest of a declaration with braces, behind its description. -/
def TypeShape.Covers : TypeShape → String → List Syntax → Prop
  | .opaqueValue, keyword, parts => keyword = "type" ∧ Written ["\x7d"] parts
  | .struct fields, keyword, parts => keyword = "struct" ∧ FieldsCover fields parts
  | .enum variants, keyword, parts => keyword = "enum" ∧
      CommaList Variant.Covers (Written [","]) (Written ["\x7d"]) variants parts

/-- An opaque type may be written without braces. -/
def TypeDecl.Covers (decl : TypeDecl) (parts : List Syntax) : Prop :=
  ∃ keyword texts w body, parts = [.declaration decl.name (w ++ body)] ∧
    ParametersSpelled decl.parameters texts ∧ Written (keyword :: decl.name :: texts) w ∧
    ((∃ d v, body = d ++ v ∧ keyword = "type" ∧ decl.shape = .opaqueValue ∧
        decl.description.isSome ∧ Describes decl.description d ∧ Written [";"] v) ∨
      ∃ w' d v, body = w' ++ (d ++ v) ∧ Written ["\x7b"] w' ∧
        (keyword = "type" → decl.description.isSome) ∧ Describes decl.description d ∧
        decl.shape.Covers keyword v)

/-! ### Classes -/

end Parsed

def Effect.Spelled : Effect → List String → Prop
  | .invokes path, texts => ∃ p, path.Spelled false p ∧ texts = "invokes" :: (p ++ ["(", ")", ";"])
  | .forbidTransitive path, texts =>
      ∃ p, path.Spelled false p ∧ texts = "forbid" :: "transitive" :: (p ++ [";"])
  | .reads path, texts => ∃ p, path.Spelled false p ∧ texts = "reads" :: (p ++ [";"])
  | .creates name context, texts =>
      ∃ p, context.Spelled false p ∧ texts = "creates" :: name :: ":" :: (p ++ [";"])

def EnvelopeSpelled : Option (List Effect) → List String → Prop
  | none, texts => texts = ["abstract", ";"]
  | some effects, texts => ∃ b, Block Effect.Spelled (· = ["\x7d"]) effects b ∧
      texts = "envelope" :: "\x7b" :: b

def FieldKind.keyword : FieldKind → String
  | .identity => "identity"
  | .input => "input"
  | .state => "state"

def Field.Spelled (field : Field) (texts : List String) : Prop :=
  ∃ p, field.ty.Spelled p ∧ texts = field.kind.keyword :: field.name :: ":" :: (p ++ [";"])

def ClassKind.keywords : ClassKind → List String
  | .concrete => ["class"]
  | .abstract => ["abstract", "class"]
  | .context => ["context"]

def BaseSpelled : Option Path → List String → Prop
  | none, texts => texts = []
  | some path, texts => ∃ p, path.Spelled false p ∧ texts = "extends" :: p

namespace Parsed

/-- The words before the name of a method. -/
def Method.keywords (method : Method) : List String :=
  (if method.isOverride then ["override"] else []) ++
    match method.kind with
    | .query => ["query"]
    | .function => ["fn"]

def Method.Covers (method : Method) (parts : List Syntax) : Prop :=
  ∃ texts texts' w d v, parts = [.declaration method.name (w ++ (d ++ v))] ∧
    method.result.Spelled texts ∧
    Written (method.keywords ++ (method.name :: "(" :: ")" :: "->" :: (texts ++ ["\x7b"]))) w ∧
    Described method.description d ∧ EnvelopeSpelled method.envelope texts' ∧
    Written (texts' ++ ["\x7d"]) v

def MemberCovers : Field ⊕ Method → List Syntax → Prop
  | .inl field, parts => ∃ texts, field.Spelled texts ∧ Written texts parts
  | .inr method, parts => method.Covers parts

def Class.Covers (decl : Class) (parts : List Syntax) : Prop :=
  ∃ texts members w d v, parts = [.declaration decl.name (w ++ (d ++ v))] ∧
    BaseSpelled decl.base texts ∧
    Written (decl.kind.keywords ++ (decl.name :: (texts ++ ["\x7b"]))) w ∧
    Described decl.description d ∧ Block MemberCovers (Written ["\x7d"]) members v ∧
    decl.fields = members.filterMap Sum.getLeft? ∧ decl.methods = members.filterMap Sum.getRight?

/-! ### Documents -/

def CrateItemSpelled : String ⊕ String → List String → Prop
  | .inl dependency, texts => texts = ["depends", "$", dependency, ";"]
  | .inr module, texts => texts = ["module", module, ";"]

def Header.Covers : Header → List Syntax → Prop
  | .crate name purpose dependencies modules, parts => ∃ w d v items texts,
      parts = w ++ (d ++ v) ∧ Written ["crate", name, "\x7b"] w ∧ Described purpose d ∧
      Block CrateItemSpelled (· = ["\x7d"]) items texts ∧ Written texts v ∧
      dependencies = items.filterMap Sum.getLeft? ∧ modules = items.filterMap Sum.getRight?
  | .module path, parts => ∃ p, path.Spelled false p ∧ Written ("module" :: (p ++ [";"])) parts

def Declaration.Covers : Declaration → List Syntax → Prop
  | .type decl, parts => decl.Covers parts
  | .class decl, parts => decl.Covers parts

/-- The tokens of a document, in its declarations. -/
def Document.Covers (document : Document) (parts : List Syntax) : Prop :=
  ∃ h ds, parts = h ++ ds ∧ document.header.Covers h ∧
    Items Declaration.Covers document.declarations ds

end Parsed

end Sage.Meta
