import Sage.Resolve.External
import Sage.Syntax.Ty

/-!
# Solve — the heads of self types

`SimplifiedSelfType` and `simplify_self_type` of `external_syms.rs` with
`simplify_self_type_head` of the provider: the head of a type is computed from a type of Sage and
from a type of rustc.

* `RustTy` — the types of rustc, without lifetimes, lengths and constant arguments.
* `Ground`, `Ty.ground`, `RustTy.ground` — the type that both are instances of, once variables and
  parameters are instantiated and projections are normalized.
* `Head.simplified` — the head of such a type; both classifications are this one
  (`simplifySelfType_sound`, `simplifySelfTypeHead_sound`).
-/

namespace Sage.Candidates

open Resolve (SymExt DefId Metadata)

/-! ### The types of rustc -/

inductive RustFloat where
  | f16
  | f32
  | f64
  | f128
deriving DecidableEq

/-- The kinds of types that have no head. -/
inductive OtherKind where
  | pat
  | rawPtr
  | foreign
  | fnDef
  | unsafeBinder
  | dynamic
  | closure
  | coroutineClosure
  | coroutine
  | coroutineWitness
  | bound
  | placeholder
  | infer
  | error
deriving DecidableEq

inductive RustTy where
  | bool
  | char
  | int (i : IntTy)
  | uint (u : UintTy)
  | float (f : RustFloat)
  | str
  | adt (d : DefId) (args : List RustTy)
  | ref (inner : RustTy) (m : Mutability)
  | tuple (elems : List RustTy)
  | slice (inner : RustTy)
  | array (inner : RustTy)
  | fnPtr (params : List RustTy) (ret : RustTy)
  | never
  | param (index : Nat)
  | alias (d : DefId) (args : List RustTy)
  | other (kind : OtherKind) (id : Nat) (args : List RustTy)

/-! ### Instances -/

inductive Head where
  | bool
  | char
  | int (i : IntTy)
  | uint (u : UintTy)
  | float (f : RustFloat)
  | str
  | adt (d : DefId)
  | ref (m : Mutability)
  | tuple
  | slice
  | array
  | fnPtr
  | never
  /-- Also a projection that stays as it is. -/
  | other (kind : Option OtherKind) (id : Nat)
deriving DecidableEq

inductive Ground where
  | mk (head : Head) (args : List Ground)

def Ground.head : Ground → Head
  | .mk head _ => head

/-- The crate that is checked. -/
def localCrate : Nat := 0

/-- The symbols in types, with the definitions they stand for. -/
structure Names (D : Metadata) where
  symbol : Symbol → Resolve.Symbol
  defId : Symbol → DefId
  ext_eq : ∀ {sym e}, symbol sym = .ext e → e = D.symExt (defId sym)
  ext_krate : ∀ {sym e}, symbol sym = .ext e → (defId sym).krate ≠ localCrate
  local_krate : ∀ {sym kind id}, symbol sym = .local kind id → (defId sym).krate = localCrate

/-- What the variables, the parameters and the aliases of a type of Sage are instantiated with. -/
structure Instance where
  var : InferVarIndex → Ground
  param : GenericParam → Ground
  error : Ground
  named : TypeAliasSymbol → List Ground → Ground
  projection : TypeAliasSymbol → TraitSymbol → Ground → List Ground → List Ground → Ground
  opaqueAlias : TypeAliasSymbol → List Ground → Ground

def rustFloat : FloatTy → RustFloat
  | .f32 => .f32
  | .f64 => .f64

section

variable {D : Metadata} (N : Names D) (I : Instance)

mutual

def ground : Ty → Ground
  | .bool => .mk .bool []
  | .char => .mk .char []
  | .int i => .mk (.int i) []
  | .uint u => .mk (.uint u) []
  | .float f => .mk (.float (rustFloat f)) []
  | .str => .mk .str []
  | .adt sym args => .mk (.adt (N.defId sym)) (groundList args)
  | .alias a => groundAlias a
  | .ref inner m _ => .mk (.ref m) [ground inner]
  | .tuple elems => .mk .tuple (groundList elems)
  | .slice inner => .mk .slice [ground inner]
  | .array inner _ => .mk .array [ground inner]
  | .fnPtr params ret => .mk .fnPtr (groundList params ++ [ground ret])
  | .param p => I.param p
  | .inferVar idx => I.var idx
  | .never => .mk .never []
  | .error _ => I.error

def groundAlias : AliasTy → Ground
  | .named sym args => I.named sym (groundList args)
  | .associated associatedTy selfTy traitSym traitArgs args =>
      I.projection associatedTy traitSym (ground selfTy) (groundList traitArgs) (groundList args)
  | .opaqueAlias sym args => I.opaqueAlias sym (groundList args)

def groundList : List Ty → List Ground
  | [] => []
  | ty :: tys => ground ty :: groundList tys

end

end

section

variable (param : Nat → Ground) (alias_ : DefId → List Ground → Ground)

mutual

def RustTy.ground : RustTy → Ground
  | .bool => .mk .bool []
  | .char => .mk .char []
  | .int i => .mk (.int i) []
  | .uint u => .mk (.uint u) []
  | .float f => .mk (.float f) []
  | .str => .mk .str []
  | .adt d args => .mk (.adt d) (RustTy.groundList args)
  | .ref inner m => .mk (.ref m) [RustTy.ground inner]
  | .tuple elems => .mk .tuple (RustTy.groundList elems)
  | .slice inner => .mk .slice [RustTy.ground inner]
  | .array inner => .mk .array [RustTy.ground inner]
  | .fnPtr params ret => .mk .fnPtr (RustTy.groundList params ++ [RustTy.ground ret])
  | .never => .mk .never []
  | .param index => param index
  | .alias d args => alias_ d (RustTy.groundList args)
  | .other kind id args => .mk (.other (some kind) id) (RustTy.groundList args)

def RustTy.groundList : List RustTy → List Ground
  | [] => []
  | ty :: tys => RustTy.ground ty :: RustTy.groundList tys

end

end

/-! ### Symbols -/

inductive NominalSymbol where
  | loc (id : Nat)
  | ext (definition : SymExt)

/-- Structs and enums among the data of symbols. -/
inductive SymbolData where
  | structSymbol (sym : NominalSymbol)
  | enumSymbol (sym : NominalSymbol)
  | other

/-- `Symbol::data`, which has no answer for two of the kinds of external symbols. -/
def symbolData : Resolve.Symbol → Option SymbolData
  | .local .struct id => some (.structSymbol (.loc id))
  | .local .enum id => some (.enumSymbol (.loc id))
  | .local _ _ | .mod _ | .use _ => some .other
  | .ext definition =>
      match definition.kind with
      | .struct => some (.structSymbol (.ext definition))
      | .enum => some (.enumSymbol (.ext definition))
      | .tupleStructCtor | .other => none
      | _ => some .other

def externalAdt (sym : Resolve.Symbol) : Option (Option SymExt) := do
  match ← symbolData sym with
  | .structSymbol (.ext external) | .enumSymbol (.ext external) => return some external
  | _ => return none

/-! ### Heads -/

inductive SimplifiedSelfType where
  | adt (definition : SymExt)
  | localAdt
  | bool
  | char
  | int
  | uint
  | float32
  | float64
  | str
  | ref
  | tuple
  | slice
  | array
  | fnPtr
  | never

inductive RawSelfTypeHead where
  | adt (definition : SymExt)
  | localAdt
  | bool
  | char
  | int
  | uint
  | float16
  | float32
  | float64
  | float128
  | str
  | ref
  | tuple
  | slice
  | array
  | fnPtr
  | never
deriving DecidableEq

def SimplifiedSelfType.intoRaw : SimplifiedSelfType → RawSelfTypeHead
  | .adt definition => .adt definition
  | .localAdt => .localAdt
  | .bool => .bool
  | .char => .char
  | .int => .int
  | .uint => .uint
  | .float32 => .float32
  | .float64 => .float64
  | .str => .str
  | .ref => .ref
  | .tuple => .tuple
  | .slice => .slice
  | .array => .array
  | .fnPtr => .fnPtr
  | .never => .never

variable {D : Metadata}

def simplifySelfType (N : Names D) : Ty → Option (Option SimplifiedSelfType)
  | .adt sym _ => do
      match ← symbolData (N.symbol sym) with
      | .structSymbol (.ext external) | .enumSymbol (.ext external) => return some (.adt external)
      | .structSymbol (.loc _) | .enumSymbol (.loc _) => return some .localAdt
      | .other => return none
  | .bool => some (some .bool)
  | .char => some (some .char)
  | .int _ => some (some .int)
  | .uint _ => some (some .uint)
  | .float .f32 => some (some .float32)
  | .float .f64 => some (some .float64)
  | .str => some (some .str)
  | .ref _ _ _ => some (some .ref)
  | .tuple _ => some (some .tuple)
  | .slice _ => some (some .slice)
  | .array _ _ => some (some .array)
  | .fnPtr _ _ => some (some .fnPtr)
  | .never => some (some .never)
  | .alias _ | .param _ | .inferVar _ | .error _ => some none

def simplifySelfTypeHead (D : Metadata) : RustTy → Option RawSelfTypeHead
  | .adt d _ => some (.adt (D.symExt d))
  | .bool => some .bool
  | .char => some .char
  | .int _ => some .int
  | .uint _ => some .uint
  | .float .f16 => some .float16
  | .float .f32 => some .float32
  | .float .f64 => some .float64
  | .float .f128 => some .float128
  | .str => some .str
  | .ref _ _ => some .ref
  | .tuple _ => some .tuple
  | .slice _ => some .slice
  | .array _ => some .array
  | .fnPtr _ _ => some .fnPtr
  | .never => some .never
  | .param _ | .alias _ _ | .other _ _ _ => none

/-- The head that the instances of a type have. -/
def Head.simplified (D : Metadata) : Head → Option RawSelfTypeHead
  | .bool => some .bool
  | .char => some .char
  | .int _ => some .int
  | .uint _ => some .uint
  | .float .f16 => some .float16
  | .float .f32 => some .float32
  | .float .f64 => some .float64
  | .float .f128 => some .float128
  | .str => some .str
  | .adt d => some (if d.krate = localCrate then .localAdt else .adt (D.symExt d))
  | .ref _ => some .ref
  | .tuple => some .tuple
  | .slice => some .slice
  | .array => some .array
  | .fnPtr => some .fnPtr
  | .never => some .never
  | .other _ _ => none

variable {N : Names D} {I : Instance} {param : Nat → Ground} {alias_ : DefId → List Ground → Ground}

/-- The data of a symbol tells in which crate its definition is. -/
theorem symbolData_krate {sym : Symbol} {data : SymbolData}
    (h : symbolData (N.symbol sym) = some data) :
    (∀ external, data = .structSymbol (.ext external) ∨ data = .enumSymbol (.ext external) →
      external = D.symExt (N.defId sym) ∧ (N.defId sym).krate ≠ localCrate) ∧
    ∀ id, data = .structSymbol (.loc id) ∨ data = .enumSymbol (.loc id) →
      (N.defId sym).krate = localCrate := by
  cases hsym : N.symbol sym with
  | «local» kind id =>
      have hkrate := N.local_krate hsym
      rw [hsym] at h
      refine ⟨fun external hext => ?_, fun _ _ => hkrate⟩
      cases kind <;> simp [symbolData] at h <;> subst h <;> simp at hext
  | ext e =>
      have hkrate := N.ext_krate hsym
      have heq := N.ext_eq hsym
      rw [hsym] at h
      cases hkind : e.kind <;> simp [symbolData, hkind] at h <;> subst h <;>
        simp [hkrate, heq]
  | mod module =>
      rw [hsym] at h
      simp only [symbolData, Option.some.injEq] at h
      subst h
      simp
  | use id =>
      rw [hsym] at h
      simp only [symbolData, Option.some.injEq] at h
      subst h
      simp

theorem simplifySelfType_sound {ty : Ty} {s : SimplifiedSelfType}
    (h : simplifySelfType N ty = some (some s)) :
    (ground N I ty).head.simplified D = some s.intoRaw := by
  cases ty with
  | adt sym args =>
      simp only [simplifySelfType, Option.bind_eq_bind, Option.bind_eq_some_iff] at h
      obtain ⟨data, hdata, h⟩ := h
      obtain ⟨hext, hloc⟩ := symbolData_krate hdata
      simp only [ground, Ground.head, Head.simplified]
      cases data with
      | structSymbol sym' =>
          cases sym' with
          | loc id =>
              cases h
              rw [if_pos (hloc id (.inl rfl))]
              rfl
          | ext external =>
              cases h
              obtain ⟨rfl, hkrate⟩ := hext external (.inl rfl)
              rw [if_neg hkrate]
              rfl
      | enumSymbol sym' =>
          cases sym' with
          | loc id =>
              cases h
              rw [if_pos (hloc id (.inr rfl))]
              rfl
          | ext external =>
              cases h
              obtain ⟨rfl, hkrate⟩ := hext external (.inr rfl)
              rw [if_neg hkrate]
              rfl
      | other => cases h
  | float f => cases f <;> cases h <;> rfl
  | _ => cases h <;> simp [ground, Ground.head, Head.simplified, SimplifiedSelfType.intoRaw]

theorem simplifySelfTypeHead_sound {ty : RustTy} {head : RawSelfTypeHead}
    (h : simplifySelfTypeHead D ty = some head)
    (hext : ∀ d args, ty = .adt d args → d.krate ≠ localCrate) :
    (RustTy.ground param alias_ ty).head.simplified D = some head := by
  cases ty with
  | adt d args =>
      cases h
      simp [RustTy.ground, Ground.head, Head.simplified, hext d args rfl]
  | float f => cases f <;> cases h <;> rfl
  | _ => cases h <;> simp [RustTy.ground, Ground.head, Head.simplified]

end Sage.Candidates
