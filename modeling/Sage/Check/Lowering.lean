import Sage.Check.Instantiate
import Sage.Check.Scope

/-!
# Check — written types

`parse/types.rs`, and the two functions that turn a written type into a type: `TypeCst::check` of
`cst/ty.rs` in a signature, `TypeCst::check_ty` of `check/expr.rs` in a body.  Both record
diagnostics and the parameter environments of the definitions they name.

* `TypeNode`, `parseType` — syntax nodes, and the constructor the parser chooses.
* `applyExternalAdtSignature` — explicit arguments and declared defaults.
* `TypeCst.check`, `TypeCst.checkTy`.
-/

namespace Sage.Check

open Resolve (Namespace)

/-! ### Syntax -/

inductive LifetimeCst where
  | named (name : Name)
  | anonymous
deriving DecidableEq

/-- The nodes of types.  An `array_type` has a length unless it is a slice, and a `function_type`
has the tokens before its `fn`.  `other` is a node of any other kind, like a pointer type, a trait
object or the argument for a const parameter. -/
inductive TypeNode where
  | path (path : Path) (args : List TypeNode)
  | reference (inner : TypeNode) (m : Mutability) (lifetime : LifetimeCst)
  | tuple (elems : List TypeNode)
  | array (element : TypeNode) (length : Option Const)
  | function (modifiers : List Name) (params : List TypeNode) (ret : Option TypeNode)
  | never
  | other

/-- Written types; only the last segment of a path has type arguments. -/
inductive TypeCst where
  | path (path : Path) (args : List TypeCst)
  | reference (inner : TypeCst) (m : Mutability) (lifetime : LifetimeCst)
  | slice (inner : TypeCst)
  | array (inner : TypeCst)
  | tuple (elems : List TypeCst)
  | fn (params : List TypeCst) (ret : Option TypeCst)
  | never
  | infer
  | error

mutual

def parseType : TypeNode → TypeCst
  | .path path args => .path path (parseTypes args)
  | .reference inner m lifetime => .reference (parseType inner) m lifetime
  | .tuple elems => .tuple (parseTypes elems)
  -- the length is not read
  | .array element _ => .array (parseType element)
  -- nor are the modifiers
  | .function _ params ret => .fn (parseTypes params) (parseTypeOption ret)
  | .never => .never
  | .other => .error

def parseTypes : List TypeNode → List TypeCst
  | [] => []
  | node :: nodes => parseType node :: parseTypes nodes

def parseTypeOption : Option TypeNode → Option TypeCst
  | none => none
  | some node => some (parseType node)

end

/-! ### Definitions -/

inductive Intrinsic where
  | bool
  | char
  | str
  | int (i : IntTy)
  | uint (u : UintTy)
  | float (f : FloatTy)
deriving DecidableEq

def intrinsicToTy : Intrinsic → Ty
  | .bool => .bool
  | .char => .char
  | .str => .str
  | .int i => .int i
  | .uint u => .uint u
  | .float f => .float f

inductive GenericDefault where
  | type (ty : Ty)
  | absent
  | unsupported

structure ExternalAdtSignature where
  generics : List GenericParam
  defaults : List GenericDefault
  parameterEnv : CheckedParameterEnv
  ordinaryComplete : Bool

inductive ApplyExternalAdtError where
  | metadataUnavailable
  | incorrectTypeArgumentCount
deriving DecidableEq

def ApplyExternalAdtError.message : ApplyExternalAdtError → String
  | .metadataUnavailable => "external type declaration metadata is unavailable"
  | .incorrectTypeArgumentCount => "incorrect number of type arguments"

/-- Explicit arguments first, then defaults, which can name the parameters before them. -/
def applyArguments : List (GenericParam × GenericDefault) → List Ty → ParamSubst →
    Except ApplyExternalAdtError (List Ty × ParamSubst)
  | [], [], substitution => .ok ([], substitution)
  | [], _ :: _, _ => .error .incorrectTypeArgumentCount
  | (generic, default) :: rows, explicit, substitution =>
      if generic.kind ≠ .type then
        applyArguments rows explicit substitution
      else
        match explicit, default with
        | argument :: explicit, _ => do
            let (applied, substitution) ←
              applyArguments rows explicit (substitution.insert (generic, argument))
            return (argument :: applied, substitution)
        | [], .type default => do
            let argument := substitute substitution default
            let (applied, substitution) ←
              applyArguments rows [] (substitution.insert (generic, argument))
            return (argument :: applied, substitution)
        | [], .absent => .error .incorrectTypeArgumentCount
        | [], .unsupported => .error .metadataUnavailable

structure AppliedExternalAdt where
  args : List Ty
  parameterEnv : CheckedParameterEnv

def typeParameterCount (generics : List GenericParam) : Nat :=
  (generics.filter fun parameter => parameter.kind = .type).length

/-- The signature is absent where the metadata of the crate is not available. -/
def applyExternalAdtSignature (signature : Option ExternalAdtSignature) (explicit : List Ty) :
    Except ApplyExternalAdtError AppliedExternalAdt :=
  match signature with
  | none => .error .metadataUnavailable
  | some signature =>
      if ¬signature.ordinaryComplete then
        .error .metadataUnavailable
      else if signature.generics.length ≠ signature.defaults.length then
        .error .metadataUnavailable
      else if typeParameterCount signature.generics < explicit.length then
        .error .incorrectTypeArgumentCount
      else do
        let (applied, substitution) ← applyArguments
          (signature.generics.zip signature.defaults) explicit fun _ => none
        return ⟨applied, foldParameterEnv (substitute substitution) signature.parameterEnv⟩

/-- What a symbol is to a type; `other` are functions, variants, constants, statics, impls, modules,
macros and imports. -/
inductive SymbolData where
  | intrinsicType (intrinsic : Intrinsic)
  | typeAlias (alias_ : TypeAliasSymbol)
  | localStruct (sig : Binder StructSig)
  | localEnum (sig : Binder EnumSig)
  | extAdt (signature : Option ExternalAdtSignature)
  | trait
  | other

/-- The names in scope of a type, in the type namespace. -/
structure TypeScope where
  /-- `Resolver::resolve_path`. -/
  resolve : Path → List Resolution
  data : Symbol → SymbolData

/-! ### The lowerings -/

/-- A value, with the diagnostics reported and the environments recorded on the way. -/
structure Lowered (α : Type) where
  value : α
  diagnostics : List String
  environments : List CheckedParameterEnv

namespace Lowered

instance : Monad Lowered where
  pure a := ⟨a, [], []⟩
  bind x f :=
    ⟨(f x.value).value, x.diagnostics ++ (f x.value).diagnostics,
      x.environments ++ (f x.value).environments⟩

def report (message : String) : Lowered ErrorReported := ⟨⟨⟩, [message], []⟩

/-- `record_type_use_parameter_env` in a signature, `submit_parameter_env` in a body. -/
def recordEnv (environment : CheckedParameterEnv) : Lowered Unit := ⟨(), [], [environment]⟩

end Lowered

/-- What both lowerings do with an external struct or enum. -/
def checkExternalAdt (sym : Symbol) (signature : Option ExternalAdtSignature) (args : List Ty) :
    Lowered Ty :=
  match applyExternalAdtSignature signature args with
  | .ok applied => do
      Lowered.recordEnv applied.parameterEnv
      return .adt sym applied.args
  | .error error => return .error (← Lowered.report error.message)

def resolutionToTy (Γ : TypeScope) (sym : Symbol) (args : List Ty) : Lowered Ty :=
  match Γ.data sym with
  | .intrinsicType intrinsic => return intrinsicToTy intrinsic
  | .typeAlias def_ => return .alias (.named def_ args)
  | .extAdt signature => checkExternalAdt sym signature args
  | .localStruct _ | .localEnum _ | .trait | .other => return .adt sym args

mutual

/-- The lowering in a signature. -/
def TypeCst.check (Γ : TypeScope) : TypeCst → Lowered Ty
  | .path written args => do
      let args ← checkAll Γ args
      match (Γ.resolve written).head? with
      | some (.param param) => return .param param
      | some (.sym sym) => resolutionToTy Γ sym args
      | some (.selfTy ty) => return ty
      | some (.loc _) | none => return .error (← Lowered.report "unresolved type")
  | .reference inner m _ => do
      let inner ← inner.check Γ
      return .ref inner m .dummy
  | .tuple elems => do
      let elems ← checkAll Γ elems
      return .tuple elems
  | .slice inner => do
      let inner ← inner.check Γ
      return .slice inner
  | .array inner => do
      let inner ← inner.check Γ
      return .array inner (.literal 0)
  | .fn params ret => do
      let params ← checkAll Γ params
      let ret ← checkReturn Γ ret
      return .fnPtr params ret
  | .never => return .never
  | .infer | .error => return .error (← Lowered.report "syntax error in type")

def TypeCst.checkAll (Γ : TypeScope) : List TypeCst → Lowered (List Ty)
  | [] => return []
  | ty :: tys => do
      let ty ← ty.check Γ
      let tys ← checkAll Γ tys
      return ty :: tys

def TypeCst.checkReturn (Γ : TypeScope) : Option TypeCst → Lowered Ty
  | none => return .tuple []
  | some ret => ret.check Γ

end

/-- A body counts the arguments of a local struct or enum and submits what it requires. -/
def checkLocalAdt (sym : Symbol) (generics : List GenericParam)
    (environment : List Ty → CheckedParameterEnv) (args : List Ty) : Lowered Ty :=
  if typeParameterCount generics ≠ args.length then
    return .error (← Lowered.report "incorrect number of type arguments")
  else do
    Lowered.recordEnv (environment args)
    return .adt sym args

def symbolToTy (Γ : TypeScope) (sym : Symbol) (args : List Ty) : Lowered Ty :=
  match Γ.data sym with
  | .intrinsicType intrinsic => return intrinsicToTy intrinsic
  | .localStruct sig =>
      checkLocalAdt sym sig.generics (fun args => (instantiateStructSig sig args).parameterEnv) args
  | .localEnum sig =>
      checkLocalAdt sym sig.generics (fun args => (instantiateEnumSig sig args).parameterEnv) args
  | .typeAlias def_ => return .alias (.named def_ args)
  | .extAdt signature => checkExternalAdt sym signature args
  | .trait => return .adt sym args
  | .other => return .error (← Lowered.report "expected type")

mutual

/-- The lowering in a body. -/
def TypeCst.checkTy (Γ : TypeScope) : TypeCst → Lowered Ty
  | .path written args => do
      let args ← checkTyAll Γ args
      match (Γ.resolve written).head? with
      | some (.sym sym) => symbolToTy Γ sym args
      | some (.param param) => return .param param
      | some (.selfTy ty) => return ty
      | some (.loc _) | none => return .error (← Lowered.report "unresolved type")
  | .reference inner m _ => do
      let inner ← inner.checkTy Γ
      return .ref inner m .dummy
  | .tuple elems => do
      let elems ← checkTyAll Γ elems
      return .tuple elems
  | .slice inner => do
      let inner ← inner.checkTy Γ
      return .slice inner
  | .array inner => do
      let inner ← inner.checkTy Γ
      return .array inner (.literal 0)
  | .fn params ret => do
      let params ← checkTyAll Γ params
      let ret ← checkTyReturn Γ ret
      return .fnPtr params ret
  | .never => return .never
  | .infer | .error => return .error (← Lowered.report "syntax error in type")

def TypeCst.checkTyAll (Γ : TypeScope) : List TypeCst → Lowered (List Ty)
  | [] => return []
  | ty :: tys => do
      let ty ← ty.checkTy Γ
      let tys ← checkTyAll Γ tys
      return ty :: tys

def TypeCst.checkTyReturn (Γ : TypeScope) : Option TypeCst → Lowered Ty
  | none => return .tuple []
  | some ret => ret.checkTy Γ

end

end Sage.Check
