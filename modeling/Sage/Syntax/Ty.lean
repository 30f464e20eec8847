import Sage.Library.Term

/-!
# Syntax — resolved types

The types of `ty.rs`.  A type is stash-allocated and the stash is hash-consed, so equality of
pointers is equality of trees: a `Ptr<Ty>` is a `Ty` here, and a slice of pointers is a list.
Symbols and generic parameters are compared by identity only.

Lifetimes have one value, and a reported error is a token without content.

* `Ty.foldLeaves` — the type folder of `ty_fold.rs`: it rebuilds a type and replaces its
  inference variables, its type parameters and its array lengths.
* `Ty.subst` — the instance that replaces inference variables, with `Ty.subst_subst`.
-/

namespace Sage

structure Symbol where
  id : Nat
deriving DecidableEq, Repr

inductive TypeAliasSymbol where
  | loc (id : Nat)
  | ext (id : Nat)
deriving DecidableEq, Repr

inductive TraitSymbol where
  | loc (id : Nat)
  | ext (id : Nat)
deriving DecidableEq, Repr

inductive GenericParamKind where
  | type
  | lifetime
  | const
deriving DecidableEq, Repr

/-- A parameter written in local source. -/
structure AstGenericParam where
  kind : GenericParamKind
  parent : Symbol
  index : Nat
deriving DecidableEq, Repr

/-- A parameter of an external crate's metadata. -/
structure ExtGenericParam where
  kind : GenericParamKind
  parent : Symbol
  index : Nat
deriving DecidableEq, Repr

/-- The canonical placeholder of a query. -/
structure AlphaEquivParam where
  kind : GenericParamKind
  index : Nat
deriving DecidableEq, Repr

inductive GenericParam where
  | ast (p : AstGenericParam)
  | ext (p : ExtGenericParam)
  | alphaEquiv (p : AlphaEquivParam)
deriving DecidableEq, Repr

def GenericParam.kind : GenericParam → GenericParamKind
  | .ast p => p.kind
  | .ext p => p.kind
  | .alphaEquiv p => p.kind

abbrev InferVarIndex := Nat

inductive IntTy where
  | i8 | i16 | i32 | i64 | i128 | isize
deriving DecidableEq, Repr

inductive UintTy where
  | u8 | u16 | u32 | u64 | u128 | usize
deriving DecidableEq, Repr

inductive FloatTy where
  | f32 | f64
deriving DecidableEq, Repr

inductive Mutability where
  | shared
  | mut
deriving DecidableEq, Repr

inductive Lifetime where
  | dummy
deriving DecidableEq, Repr

inductive Const where
  | literal (value : UInt64)
  | param (p : GenericParam)
  | other (sym : Symbol)
deriving DecidableEq, Repr

/-- Evidence that a diagnostic was emitted. -/
structure ErrorReported where
deriving DecidableEq, Repr

mutual

inductive Ty where
  | bool
  | char
  | int (i : IntTy)
  | uint (u : UintTy)
  | float (f : FloatTy)
  | str
  | adt (sym : Symbol) (args : List Ty)
  | alias (a : AliasTy)
  | ref (inner : Ty) (m : Mutability) (lt : Lifetime)
  | tuple (elems : List Ty)
  | slice (inner : Ty)
  | array (inner : Ty) (c : Const)
  | fnPtr (params : List Ty) (ret : Ty)
  | param (p : GenericParam)
  | inferVar (idx : InferVarIndex)
  | never
  | error (e : ErrorReported)

/-- A semantic type alias application; its identity is kept until it is normalized. -/
inductive AliasTy where
  | named (sym : TypeAliasSymbol) (args : List Ty)
  | associated (associatedTy : TypeAliasSymbol) (selfTy : Ty) (traitSym : TraitSymbol)
      (traitArgs : List Ty) (args : List Ty)
  | opaqueAlias (sym : TypeAliasSymbol) (args : List Ty)

end

instance : Inhabited Ty := ⟨.bool⟩

structure TraitRef where
  traitSym : TraitSymbol
  args : List Ty

/-! ### The type folder -/

section Fold

variable (onVar : InferVarIndex → Ty) (onParam : GenericParam → Ty) (onConst : Const → Const)

mutual

/-- Rebuild a type, replacing inference variables, type parameters and array lengths. -/
@[grind =] def Ty.foldLeaves : Ty → Ty
  | .bool => .bool
  | .char => .char
  | .int i => .int i
  | .uint u => .uint u
  | .float f => .float f
  | .str => .str
  | .adt sym args => .adt sym (foldLeavesList args)
  | .alias a => .alias (AliasTy.foldLeaves a)
  | .ref inner m lt => .ref (Ty.foldLeaves inner) m lt
  | .tuple elems => .tuple (foldLeavesList elems)
  | .slice inner => .slice (Ty.foldLeaves inner)
  | .array inner c => .array (Ty.foldLeaves inner) (onConst c)
  | .fnPtr params ret => .fnPtr (foldLeavesList params) (Ty.foldLeaves ret)
  | .param p => onParam p
  | .inferVar idx => onVar idx
  | .never => .never
  | .error e => .error e

def AliasTy.foldLeaves : AliasTy → AliasTy
  | .named sym args => .named sym (foldLeavesList args)
  | .associated associatedTy selfTy traitSym traitArgs args =>
      .associated associatedTy (Ty.foldLeaves selfTy) traitSym (foldLeavesList traitArgs)
        (foldLeavesList args)
  | .opaqueAlias sym args => .opaqueAlias sym (foldLeavesList args)

def foldLeavesList : List Ty → List Ty
  | [] => []
  | t :: ts => Ty.foldLeaves t :: foldLeavesList ts

end

@[simp] theorem foldLeavesList_eq_map (ts : List Ty) :
    foldLeavesList onVar onParam onConst ts = ts.map (Ty.foldLeaves onVar onParam onConst) := by
  induction ts with
  | nil => rfl
  | cons t ts ih => simp [foldLeavesList, ih]

end Fold

/-- Replace the inference variables of a type. -/
@[grind =] def Ty.subst (θ : InferVarIndex → Ty) : Ty → Ty := Ty.foldLeaves θ .param id

end Sage
