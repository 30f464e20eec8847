import Sage.Library.Relator
import Sage.Parse.Paths
import Sage.Solve.Goal

/-!
# Check — typed trees

The typed tree of `tytree/mod.rs`.  A node is stored in the stash of its body and names its parts
by handle, so a node is written over any two kinds of names here: over handles it is what the
stash stores, over trees it is a layer of the tree.

* `TyExprData`, `TyPatKind` — the nodes, with their `parts`.
* `TyExprData.mapM` — visits the parts in the order the source copies them.
* `TyExprData.mapM_read` — two visits with related results for the parts have related results.
-/

namespace Sage

structure RelativeSpan where
  start : Nat
  stop : Nat
deriving DecidableEq, Repr

/-- Names a transient expression whose checked form is supplied later. -/
structure ExprSlot where
  index : Nat
deriving DecidableEq, Repr

structure LocalId where
  index : Nat
deriving DecidableEq, Repr

structure LocalVar where
  name : Name
  span : RelativeSpan
deriving DecidableEq

/-- What a path resolved to. -/
inductive PathResolution where
  | defn (sym : Symbol)
  | loc (id : LocalId)
  | error (e : ErrorReported)
deriving DecidableEq

inductive Literal where
  | int (value : Name)
  | float (value : Name)
  | string (value : Name)
  | bool (value : Bool)
  | char (value : Name)
deriving DecidableEq

inductive BinaryOp where
  | add | sub | mul | div | rem | and | or | bitAnd | bitOr | bitXor | shl | shr
  | eq | ne | lt | le | gt | ge
deriving DecidableEq, Repr

inductive UnaryOp where
  | not | neg | deref
deriving DecidableEq, Repr

inductive FieldOwner where
  | struct (sym : Symbol)
  | variant (sym : Symbol)
deriving DecidableEq, Repr

structure ResolvedField where
  owner : FieldOwner
  index : Nat
deriving DecidableEq, Repr

/-- The unparsed arguments of a macro; a body keeps the identity only. -/
structure TokenTree where
  id : Nat
deriving DecidableEq, Repr

inductive CallDispatch where
  | direct
  | staticTrait (selfTy : Ty) (traitRef : TraitRef)
deriving DecidableEq

structure ResolvedCallTarget where
  function : Symbol
  dispatch : CallDispatch
  ownerTypeArgs : List Ty
  methodTypeArgs : List Ty
deriving DecidableEq

/-! ### Nodes -/

structure TyFieldPat (P : Type) where
  name : Name
  pat : P
  span : RelativeSpan
deriving DecidableEq

inductive TyPatKind (P : Type) where
  | wildcard
  | bind (id : LocalId) (m : Mutability)
  | path (res : PathResolution)
  | tuple (pats : List P)
  | struct (res : PathResolution) (fields : List (TyFieldPat P))
  | tupleStruct (res : PathResolution) (pats : List P)
  | ref (pat : P) (m : Mutability)
  | literal (lit : Literal)
  | or (pats : List P)
  | rest
  | missing
deriving DecidableEq

structure TyPat (P : Type) where
  kind : TyPatKind P
  ty : Ty
  span : RelativeSpan
deriving DecidableEq

inductive TyStmtKind (E P : Type) where
  | letStmt (pat : P) (annotated : Option Ty) (initializer : Option E)
  | expr (e : E)
deriving DecidableEq

structure TyStmt (E P : Type) where
  kind : TyStmtKind E P
  span : RelativeSpan
deriving DecidableEq

structure TyFieldInit (E : Type) where
  name : Name
  value : E
  span : RelativeSpan
deriving DecidableEq

structure TyMatchArm (E P : Type) where
  pat : P
  guard : Option E
  body : E
  span : RelativeSpan
deriving DecidableEq

structure TyClosureParam (P : Type) where
  pat : P
  ty : Ty
  span : RelativeSpan
deriving DecidableEq

inductive TyExprData (E P : Type) where
  | literal (lit : Literal)
  | path (res : PathResolution)
  | block (stmts : List (TyStmt E P)) (tail : Option E)
  | call (callee : E) (args : List E)
  | resolvedCall (target : ResolvedCallTarget) (args : List E)
  | methodCall (receiver : E) (name : Name) (args : List E)
  | field (owner : E) (field : ResolvedField)
  | binary (left : E) (op : BinaryOp) (right : E)
  | unary (op : UnaryOp) (operand : E)
  | deref (operand : E)
  | ref (operand : E) (m : Mutability)
  /-- An explicit conversion from `!`. -/
  | neverToAny (operand : E)
  | ifExpr (condition ifTrue : E) (ifFalse : Option E)
  | ifLet (pat : P) (scrutinee ifTrue : E) (ifFalse : Option E)
  | matchExpr (scrutinee : E) (arms : List (TyMatchArm E P))
  | loop (body : E)
  | whileExpr (condition body : E)
  | whileLet (pat : P) (scrutinee body : E)
  | forExpr (pat : P) (iterator body : E)
  | breakExpr (value : Option E)
  | continueExpr
  | returnExpr (value : Option E)
  | assign (place value : E)
  | await (future : E)
  | tryExpr (value : E)
  | closure (params : List (TyClosureParam P)) (body : E)
  | tuple (elems : List E)
  | array (elems : List E)
  | index (container index : E)
  | cast (value : E) (ty : Ty)
  | structLit (res : PathResolution) (fields : List (TyFieldInit E))
  | range (start stop : Option E)
  | macroCall (res : PathResolution) (tokens : TokenTree)
  | error (e : ErrorReported)
  | unresolved (slot : ExprSlot)
  | missing
deriving DecidableEq

structure TyExpr (E P : Type) where
  data : TyExprData E P
  ty : Ty
  span : RelativeSpan
deriving DecidableEq

/-! ### The parts of a node -/

/-- What a node can name. -/
inductive Part (E P : Type) where
  | expr (e : E)
  | pat (p : P)
  | ty (t : Ty)

section Parts

variable {E P : Type}

def TyPatKind.pats : TyPatKind P → List P
  | .tuple pats | .tupleStruct _ pats | .or pats => pats
  | .struct _ fields => fields.map TyFieldPat.pat
  | .ref pat _ => [pat]
  | .wildcard | .bind _ _ | .path _ | .literal _ | .rest | .missing => []

def TyPat.parts (node : TyPat P) : List (Part E P) :=
  .ty node.ty :: node.kind.pats.map .pat

def CallDispatch.types : CallDispatch → List Ty
  | .direct => []
  | .staticTrait selfTy traitRef => selfTy :: traitRef.args

def ResolvedCallTarget.types (target : ResolvedCallTarget) : List Ty :=
  target.dispatch.types ++ target.ownerTypeArgs ++ target.methodTypeArgs

def TyStmt.parts (stmt : TyStmt E P) : List (Part E P) :=
  match stmt.kind with
  | .letStmt pat annotated initializer =>
      .pat pat :: (annotated.toList.map .ty ++ initializer.toList.map .expr)
  | .expr e => [.expr e]

def TyMatchArm.parts (arm : TyMatchArm E P) : List (Part E P) :=
  .pat arm.pat :: .expr arm.body :: arm.guard.toList.map .expr

def TyExprData.parts : TyExprData E P → List (Part E P)
  | .literal _ | .path _ | .continueExpr | .macroCall _ _ | .error _ | .unresolved _
  | .missing => []
  | .block stmts tail => stmts.flatMap TyStmt.parts ++ tail.toList.map .expr
  | .call e args | .methodCall e _ args => .expr e :: args.map .expr
  | .resolvedCall target args => target.types.map .ty ++ args.map .expr
  | .field e _ | .unary _ e | .deref e | .ref e _ | .neverToAny e | .loop e | .await e
  | .tryExpr e => [.expr e]
  | .binary e _ e' | .whileExpr e e' | .assign e e' | .index e e' => [.expr e, .expr e']
  | .ifExpr condition ifTrue ifFalse =>
      .expr condition :: .expr ifTrue :: ifFalse.toList.map .expr
  | .ifLet pat scrutinee ifTrue ifFalse =>
      .pat pat :: .expr scrutinee :: .expr ifTrue :: ifFalse.toList.map .expr
  | .matchExpr scrutinee arms => .expr scrutinee :: arms.flatMap TyMatchArm.parts
  | .whileLet pat e body | .forExpr pat e body => [.pat pat, .expr e, .expr body]
  | .breakExpr value | .returnExpr value => value.toList.map .expr
  | .closure params body => .expr body :: params.flatMap fun param => [.pat param.pat, .ty param.ty]
  | .tuple elems | .array elems => elems.map .expr
  | .cast value ty => [.expr value, .ty ty]
  | .structLit _ fields => fields.map fun field => .expr field.value
  | .range start stop => start.toList.map .expr ++ stop.toList.map .expr

def TyExpr.parts (node : TyExpr E P) : List (Part E P) := .ty node.ty :: node.data.parts

end Parts

/-! ### Visiting the parts of a node -/

/-- What to do with the parts of a node. -/
structure Visitor (M : Type → Type) (E E' P P' : Type) where
  expr : E → M E'
  pat : P → M P'
  ty : Ty → M Ty

section Visit

variable {M : Type → Type} [Monad M] {E E' P P' : Type} (onPat : P → M P') (onTy : Ty → M Ty)
  (v : Visitor M E E' P P')

def TyFieldPat.mapM (field : TyFieldPat P) : M (TyFieldPat P') :=
  return ⟨field.name, ← onPat field.pat, field.span⟩

def TyPatKind.mapM : TyPatKind P → M (TyPatKind P')
  | .wildcard => return .wildcard
  | .bind id m => return .bind id m
  | .path res => return .path res
  | .tuple pats => return .tuple (← pats.mapM onPat)
  | .struct res fields => return .struct res (← fields.mapM (TyFieldPat.mapM onPat))
  | .tupleStruct res pats => return .tupleStruct res (← pats.mapM onPat)
  | .ref pat m => return .ref (← onPat pat) m
  | .literal lit => return .literal lit
  | .or pats => return .or (← pats.mapM onPat)
  | .rest => return .rest
  | .missing => return .missing

def CallDispatch.mapM : CallDispatch → M CallDispatch
  | .direct => return .direct
  | .staticTrait selfTy traitRef => do
      let selfTy ← onTy selfTy
      return .staticTrait selfTy (← traitRef.mapM onTy)

def ResolvedCallTarget.mapM (target : ResolvedCallTarget) : M ResolvedCallTarget := do
  let dispatch ← target.dispatch.mapM onTy
  let ownerTypeArgs ← target.ownerTypeArgs.mapM onTy
  return ⟨target.function, dispatch, ownerTypeArgs, ← target.methodTypeArgs.mapM onTy⟩

def TyStmtKind.mapM : TyStmtKind E P → M (TyStmtKind E' P')
  | .letStmt pat annotated initializer => do
      let pat ← v.pat pat
      let annotated ← annotated.mapM v.ty
      return .letStmt pat annotated (← initializer.mapM v.expr)
  | .expr e => return .expr (← v.expr e)

def TyStmt.mapM (stmt : TyStmt E P) : M (TyStmt E' P') :=
  return ⟨← stmt.kind.mapM v, stmt.span⟩

def TyFieldInit.mapM (field : TyFieldInit E) : M (TyFieldInit E') :=
  return ⟨field.name, ← v.expr field.value, field.span⟩

def TyMatchArm.mapM (arm : TyMatchArm E P) : M (TyMatchArm E' P') := do
  let pat ← v.pat arm.pat
  let guard ← arm.guard.mapM v.expr
  return ⟨pat, guard, ← v.expr arm.body, arm.span⟩

def TyClosureParam.mapM (param : TyClosureParam P) : M (TyClosureParam P') := do
  let pat ← v.pat param.pat
  return ⟨pat, ← v.ty param.ty, param.span⟩

def TyExprData.mapM : TyExprData E P → M (TyExprData E' P')
  | .literal lit => return .literal lit
  | .path res => return .path res
  | .block stmts tail => do
      let stmts ← stmts.mapM (TyStmt.mapM v)
      return .block stmts (← tail.mapM v.expr)
  | .call callee args => do
      let callee ← v.expr callee
      return .call callee (← args.mapM v.expr)
  | .resolvedCall target args => do
      let target ← target.mapM v.ty
      return .resolvedCall target (← args.mapM v.expr)
  | .methodCall receiver name args => do
      let receiver ← v.expr receiver
      return .methodCall receiver name (← args.mapM v.expr)
  | .field owner member => return .field (← v.expr owner) member
  | .binary left op right => do
      let left ← v.expr left
      return .binary left op (← v.expr right)
  | .unary op operand => return .unary op (← v.expr operand)
  | .deref operand => return .deref (← v.expr operand)
  | .ref operand m => return .ref (← v.expr operand) m
  | .neverToAny operand => return .neverToAny (← v.expr operand)
  | .ifExpr condition ifTrue ifFalse => do
      let condition ← v.expr condition
      let ifTrue ← v.expr ifTrue
      return .ifExpr condition ifTrue (← ifFalse.mapM v.expr)
  | .ifLet pat scrutinee ifTrue ifFalse => do
      let pat ← v.pat pat
      let scrutinee ← v.expr scrutinee
      let ifTrue ← v.expr ifTrue
      return .ifLet pat scrutinee ifTrue (← ifFalse.mapM v.expr)
  | .matchExpr scrutinee arms => do
      let scrutinee ← v.expr scrutinee
      return .matchExpr scrutinee (← arms.mapM (TyMatchArm.mapM v))
  | .loop body => return .loop (← v.expr body)
  | .whileExpr condition body => do
      let condition ← v.expr condition
      return .whileExpr condition (← v.expr body)
  | .whileLet pat scrutinee body => do
      let pat ← v.pat pat
      let scrutinee ← v.expr scrutinee
      return .whileLet pat scrutinee (← v.expr body)
  | .forExpr pat iterator body => do
      let pat ← v.pat pat
      let iterator ← v.expr iterator
      return .forExpr pat iterator (← v.expr body)
  | .breakExpr value => return .breakExpr (← value.mapM v.expr)
  | .continueExpr => return .continueExpr
  | .returnExpr value => return .returnExpr (← value.mapM v.expr)
  | .assign place value => do
      let place ← v.expr place
      return .assign place (← v.expr value)
  | .await future => return .await (← v.expr future)
  | .tryExpr value => return .tryExpr (← v.expr value)
  | .closure params body => do
      let params ← params.mapM (TyClosureParam.mapM v)
      return .closure params (← v.expr body)
  | .tuple elems => return .tuple (← elems.mapM v.expr)
  | .array elems => return .array (← elems.mapM v.expr)
  | .index container position => do
      let container ← v.expr container
      return .index container (← v.expr position)
  | .cast value ty => do
      let value ← v.expr value
      return .cast value (← v.ty ty)
  | .structLit res fields => return .structLit res (← fields.mapM (TyFieldInit.mapM v))
  | .range start stop => do
      let start ← start.mapM v.expr
      return .range start (← stop.mapM v.expr)
  | .macroCall res tokens => return .macroCall res tokens
  | .error e => return .error e
  | .unresolved slot => return .unresolved slot
  | .missing => return .missing

end Visit

/-! ### The visit that keeps every part -/

section Keep

variable {E P : Type}

theorem mapM_some {α : Type} {l : List α} : l.mapM some = some l := by
  simpa using List.mapM_pure (m := Option) (f := (id : α → α)) (l := l)

theorem option_mapM_some {α : Type} {o : Option α} : o.mapM some = some o := by
  cases o <;> rfl

theorem TyPatKind.mapM_some {k : TyPatKind P} : k.mapM some = some k := by
  have hf : TyFieldPat.mapM (P := P) some = some := rfl
  cases k <;> simp [TyPatKind.mapM, hf, Sage.mapM_some]

/-- What leaves every part as it is. -/
def Visitor.keep : Visitor Option E E P P := ⟨some, some, some⟩

theorem Visitor.keep_expr : (keep : Visitor Option E E P P).expr = some := rfl
theorem Visitor.keep_pat : (keep : Visitor Option E E P P).pat = some := rfl
theorem Visitor.keep_ty : (keep : Visitor Option E E P P).ty = some := rfl

theorem TyExprData.mapM_keep {d : TyExprData E P} : d.mapM .keep = some d := by
  have hf : TyFieldInit.mapM (Visitor.keep (E := E) (P := P)) = some := rfl
  have hc : TyClosureParam.mapM (Visitor.keep (E := E) (P := P)) = some := rfl
  have ha : TyMatchArm.mapM (Visitor.keep (E := E) (P := P)) = some := by
    funext arm; simp [TyMatchArm.mapM, Visitor.keep, option_mapM_some]
  have hs : TyStmt.mapM (Visitor.keep (E := E) (P := P)) = some := by
    funext ⟨kind, span⟩
    cases kind <;> simp [TyStmt.mapM, TyStmtKind.mapM, Visitor.keep, option_mapM_some]
  have ht : ∀ t : ResolvedCallTarget, t.mapM some = some t := by
    rintro ⟨f, dispatch, o, m⟩
    cases dispatch <;>
      simp [ResolvedCallTarget.mapM, CallDispatch.mapM, TraitRef.mapM, Sage.mapM_some]
  cases d <;> simp [mapM, hf, hc, ha, hs, Visitor.keep_expr, Visitor.keep_pat, Visitor.keep_ty, ht,
    Sage.mapM_some, option_mapM_some]
end Keep

/-! ### Visits side by side -/

section Related

variable {M N : Type → Type} [Monad M] [Monad N] (L : Relator M N) {E E' E'' P P' P'' : Type}

/-- What two visitors do with a part is related, the second result being read off the first. -/
def Part.Visited (v : Visitor M E E' P P') (w : Visitor N E E'' P P'')
    (r : Visitor Option E' E'' P' P'') : Part E P → Prop
  | .expr e => L.rel (fun a b => r.expr a = some b) (v.expr e) (w.expr e)
  | .pat p => L.rel (fun a b => r.pat a = some b) (v.pat p) (w.pat p)
  | .ty t => L.rel (fun a b => r.ty a = some b) (v.ty t) (w.ty t)

variable [LawfulMonad M] [LawfulMonad N] {v : Visitor M E E' P P'} {w : Visitor N E E'' P P''}
  {r : Visitor Option E' E'' P' P''}

theorem TyPatKind.mapM_read {kind : TyPatKind P} {f : P → M P'} {g : P → N P''}
    {k : P' → Option P''}
    (h : ∀ p ∈ kind.pats, L.rel (fun a b => k a = some b) (f p) (g p)) :
    L.rel (fun a b => a.mapM k = some b) (kind.mapM f) (kind.mapM g) := by
  cases kind with
  | wildcard | bind | path | literal | rest | missing => exact L.pure rfl
  | tuple pats | tupleStruct _ pats | or pats =>
      refine L.bind (L.mapM_read h) fun a b => L.pure fun h => ?_
      simp [TyPatKind.mapM, h]
  | struct res fields =>
      refine L.bind (L.mapM_read (r := TyFieldPat.mapM k) fun field hf => ?_)
        fun a b => L.pure fun h => ?_
      · refine L.bind (h field.pat (List.mem_map_of_mem hf)) fun a b => L.pure fun h => ?_
        simp [TyFieldPat.mapM, h]
      · simp [TyPatKind.mapM, h]
  | ref p m =>
      refine L.bind (h p List.mem_cons_self) fun a b => L.pure fun h => ?_
      simp [TyPatKind.mapM, h]

theorem ResolvedCallTarget.mapM_read {target : ResolvedCallTarget}
    {f : Ty → M Ty} {g : Ty → N Ty} {read : Ty → Option Ty}
    (h : ∀ t ∈ target.types, L.rel (fun a b => read a = some b) (f t) (g t)) :
    L.rel (fun a b => a.mapM read = some b) (target.mapM f) (target.mapM g) := by
  obtain ⟨function, dispatch, owner, method⟩ := target
  refine L.bind (R := fun a b => a.mapM read = some b) ?_ fun a b => ?_
  · cases dispatch with
    | direct => exact L.pure rfl
    | staticTrait self r =>
        refine L.bind (h self (by simp [types, CallDispatch.types])) fun a b => ?_
        refine L.bind (R := fun a b => a.mapM read = some b) (L.bind (L.mapM_read fun t ht => h t ?_)
          fun a b => L.pure ?_) fun a b => L.pure ?_
        · simp [types, CallDispatch.types, ht]
        · intro h
          simp [TraitRef.mapM, h]
        · intro h h'
          simp [CallDispatch.mapM, h, h']
  · refine L.bind (L.mapM_read fun t ht => h t (by simp [types, ht])) fun a b => ?_
    refine L.bind (L.mapM_read fun t ht => h t (by simp [types, ht])) fun a b => L.pure ?_
    intro h₁ h₂ h₃
    simp [ResolvedCallTarget.mapM, h₁, h₂, h₃]

theorem TyStmt.mapM_read {stmt : TyStmt E P} (h : ∀ part ∈ stmt.parts, part.Visited L v w r) :
    L.rel (fun a b => a.mapM r = some b) (stmt.mapM v) (stmt.mapM w) := by
  obtain ⟨kind, span⟩ := stmt
  refine L.bind (R := fun a b => a.mapM r = some b) ?_ fun a b => L.pure fun h => ?_
  · cases kind with
    | letStmt p t e =>
        refine L.bind (h (.pat p) (by simp [parts])) fun a b => ?_
        refine L.bind (L.option_read fun t ht => h (.ty t) ?_) fun a b => ?_
        · simp [parts, Option.mem_def.mp ht]
        refine L.bind (L.option_read fun e he => h (.expr e) ?_) fun a b => L.pure fun h₁ h₂ h₃ => ?_
        · simp [parts, Option.mem_def.mp he]
        simp [TyStmtKind.mapM, h₁, h₂, h₃]
    | expr e =>
        refine L.bind (h (.expr e) (by simp [parts])) fun a b => L.pure fun h => ?_
        simp [TyStmtKind.mapM, h]
  · simp [TyStmt.mapM, h]

theorem TyMatchArm.mapM_read {arm : TyMatchArm E P}
    (h : ∀ part ∈ arm.parts, part.Visited L v w r) :
    L.rel (fun a b => a.mapM r = some b) (arm.mapM v) (arm.mapM w) := by
  obtain ⟨p, guard, body, span⟩ := arm
  refine L.bind (h (.pat p) (by simp [parts])) fun a b => ?_
  refine L.bind (L.option_read fun e he => h (.expr e) ?_) fun a b => ?_
  · simp [parts, show guard = some e from he]
  refine L.bind (h (.expr body) (by simp [parts])) fun a b => L.pure fun h₁ h₂ h₃ => ?_
  simp [TyMatchArm.mapM, h₁, h₂, h₃]

/-- Related results for the parts give a related result for the node. -/
theorem TyExprData.mapM_read {data : TyExprData E P}
    (h : ∀ part ∈ data.parts, part.Visited L v w r) :
    L.rel (fun a b => a.mapM r = some b) (data.mapM v) (data.mapM w) := by
  have he : ∀ e, Part.expr e ∈ data.parts →
      L.rel (fun a b => r.expr a = some b) (v.expr e) (w.expr e) := fun e => h (.expr e)
  have hp : ∀ p, Part.pat p ∈ data.parts →
      L.rel (fun a b => r.pat a = some b) (v.pat p) (w.pat p) := fun p => h (.pat p)
  have hes : ∀ {es : List E}, (∀ e ∈ es, Part.expr e ∈ data.parts) →
      L.rel (fun a b => a.mapM r.expr = some b) (es.mapM v.expr) (es.mapM w.expr) :=
    fun hes => L.mapM_read fun e hmem => he e (hes e hmem)
  have ho : ∀ {o : Option E}, (∀ e ∈ o, Part.expr e ∈ data.parts) →
      L.rel (fun a b => a.mapM r.expr = some b) (o.mapM v.expr) (o.mapM w.expr) :=
    fun ho => L.option_read fun e hmem => he e (ho e hmem)
  cases data with
  | literal | path | continueExpr | macroCall | error | unresolved | missing => exact L.pure rfl
  | block stmts tail =>
      refine L.bind (L.mapM_read (r := TyStmt.mapM r) fun s hs => TyStmt.mapM_read L
        fun part hpart => h part ?_) fun a b => ?_
      · exact List.mem_append_left _ (List.mem_flatMap_of_mem hs hpart)
      · refine L.bind (ho ?_) fun a b => L.pure fun h₁ h₂ => ?_
        · rintro e rfl; simp [parts]
        · simp [mapM, h₁, h₂]
  | call e args | methodCall e _ args =>
      refine L.bind (he e (by simp [parts])) fun a b => ?_
      refine L.bind (hes (by simp +contextual [parts])) fun a b => L.pure fun h₁ h₂ => ?_
      simp [mapM, h₁, h₂]
  | resolvedCall target args =>
      refine L.bind (ResolvedCallTarget.mapM_read L fun t ht => h (.ty t) ?_) fun a b => ?_
      · simp [parts, ht]
      refine L.bind (hes (by simp +contextual [parts])) fun a b => L.pure fun h₁ h₂ => ?_
      simp [mapM, h₁, h₂]
  | field e | unary _ e | deref e | ref e | neverToAny e | loop e | await e | tryExpr e =>
      refine L.bind (he e (by simp [parts])) fun a b => L.pure fun h => ?_
      simp [mapM, h]
  | binary e _ e' | whileExpr e e' | assign e e' | index e e' =>
      refine L.bind (he e (by simp [parts])) fun a b => ?_
      refine L.bind (he e' (by simp [parts])) fun a b => L.pure fun h₁ h₂ => ?_
      simp [mapM, h₁, h₂]
  | ifExpr e e' o =>
      refine L.bind (he e (by simp [parts])) fun a b => ?_
      refine L.bind (he e' (by simp [parts])) fun a b => ?_
      refine L.bind (ho ?_) fun a b => L.pure fun h₁ h₂ h₃ => ?_
      · rintro e rfl; simp [parts]
      · simp [mapM, h₁, h₂, h₃]
  | ifLet p e e' o =>
      refine L.bind (hp p (by simp [parts])) fun a b => ?_
      refine L.bind (he e (by simp [parts])) fun a b => ?_
      refine L.bind (he e' (by simp [parts])) fun a b => ?_
      refine L.bind (ho ?_) fun a b => L.pure fun h₁ h₂ h₃ h₄ => ?_
      · rintro e rfl; simp [parts]
      · simp [mapM, h₁, h₂, h₃, h₄]
  | matchExpr e arms =>
      refine L.bind (he e (by simp [parts])) fun a b => ?_
      refine L.bind (L.mapM_read (r := TyMatchArm.mapM r) fun arm ha => TyMatchArm.mapM_read L
        fun part hpart => h part ?_) fun a b => L.pure fun h₁ h₂ => ?_
      · exact List.mem_cons_of_mem _ (List.mem_flatMap_of_mem ha hpart)
      · simp [mapM, h₁, h₂]
  | whileLet p e body | forExpr p e body =>
      refine L.bind (hp p (by simp [parts])) fun a b => ?_
      refine L.bind (he e (by simp [parts])) fun a b => ?_
      refine L.bind (he body (by simp [parts])) fun a b => L.pure fun h₁ h₂ h₃ => ?_
      simp [mapM, h₁, h₂, h₃]
  | breakExpr o | returnExpr o =>
      refine L.bind (ho ?_) fun a b => L.pure fun h => ?_
      · rintro e rfl; simp [parts]
      · simp [mapM, h]
  | closure params body =>
      refine L.bind (L.mapM_read (r := TyClosureParam.mapM r) fun param hparam => ?_)
        fun a b => ?_
      · have hmem : ∀ part ∈ [Part.pat param.pat, .ty param.ty],
            part ∈ (TyExprData.closure params body).parts := fun part hpart =>
          List.mem_cons_of_mem _ (List.mem_flatMap_of_mem hparam hpart)
        refine L.bind (h (.pat param.pat) (hmem _ (by simp))) fun a b => ?_
        refine L.bind (h (.ty param.ty) (hmem _ (by simp))) fun a b => L.pure fun h₁ h₂ => ?_
        simp [TyClosureParam.mapM, h₁, h₂]
      · refine L.bind (he body (by simp [parts])) fun a b => L.pure fun h₁ h₂ => ?_
        simp [mapM, h₁, h₂]
  | tuple elems | array elems =>
      refine L.bind (hes (by simp +contextual [parts])) fun a b => L.pure fun h => ?_
      simp [mapM, h]
  | cast value t =>
      refine L.bind (he value (by simp [parts])) fun a b => ?_
      refine L.bind (h (.ty t) (by simp [parts])) fun a b => L.pure fun h₁ h₂ => ?_
      simp [mapM, h₁, h₂]
  | structLit res fields =>
      refine L.bind (L.mapM_read (r := TyFieldInit.mapM r) fun field hf => ?_)
        fun a b => L.pure fun h => ?_
      · refine L.bind (he field.value ?_) fun a b => L.pure fun h => ?_
        · simpa [parts] using ⟨field, hf, rfl⟩
        · simp [TyFieldInit.mapM, h]
      · simp [mapM, h]
  | range o o' =>
      refine L.bind (ho ?_) fun a b => ?_
      · rintro e rfl; simp [parts]
      refine L.bind (ho ?_) fun a b => L.pure fun h₁ h₂ => ?_
      · rintro e rfl; simp [parts]
      · simp [mapM, h₁, h₂]

end Related
end Sage
