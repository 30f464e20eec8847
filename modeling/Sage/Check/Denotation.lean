import Sage.Check.Lowering
import Sage.Check.TraitSig

/-!
# Check — what written types denote

The type that a written type denotes in Rust has the lengths of its arrays and the modifiers of its
functions, and a slice in it is no array.  The two lowerings are compared with each other, and
their results with what is denoted.

* `denote`, `marks` — a Rust type, up to aliases; functions keep their modifiers in `marks`.
* `Agree`, `Distinct` — what the two lowerings of one type, and the lowerings of two types, are to
  satisfy.
* `flatten` — what the parser sees of a written type; `lowered_eq` — what it is lowered to.
* `Uniform`, `faithful_iff` — when the lowerings are faithful.
-/

namespace Sage.Check

/-! ### Rust types -/

/-- Whether some rows accept a number of explicit arguments: the parameters after these have
defaults. -/
def acceptsArguments : List (GenericParam × GenericDefault) → Nat → Bool
  | [], 0 => true
  | [], _ + 1 => false
  | (generic, default) :: rows, count =>
      if generic.kind ≠ .type then acceptsArguments rows count
      else
        match count, default with
        | count + 1, _ => acceptsArguments rows count
        | 0, .type _ => acceptsArguments rows 0
        | 0, .absent | 0, .unsupported => false

/-- The metadata is there, and accepts a number of explicit arguments. -/
def AcceptsExternal (signature : Option ExternalAdtSignature) (count : Nat) : Prop :=
  match signature with
  | none => False
  | some signature =>
      signature.ordinaryComplete = true ∧
        signature.generics.length = signature.defaults.length ∧
        count ≤ typeParameterCount signature.generics ∧
        acceptsArguments (signature.generics.zip signature.defaults) count = true

/-- What a symbol with arguments denotes.  An intrinsic type has no arguments, a local definition
as many as parameters, and a trait alone is no type. -/
def denoteSymbol (Γ : TypeScope) (sym : Symbol) (args : List Ty) : Option Ty :=
  match Γ.data sym with
  | .intrinsicType intrinsic => if args = [] then some (intrinsicToTy intrinsic) else none
  | .typeAlias def_ => some (.alias (.named def_ args))
  | .localStruct sig =>
      if typeParameterCount sig.generics = args.length then some (.adt sym args) else none
  | .localEnum sig =>
      if typeParameterCount sig.generics = args.length then some (.adt sym args) else none
  | .extAdt signature =>
      match applyExternalAdtSignature signature args with
      | .ok applied => some (.adt sym applied.args)
      | .error _ => none
  | .trait | .other => none

def denotePath (Γ : TypeScope) (path : Path) (args : List Ty) : Option Ty :=
  match (Γ.resolve path).head? with
  | some (.param param) => if args = [] then some (.param param) else none
  | some (.sym sym) => denoteSymbol Γ sym args
  | some (.selfTy ty) => if args = [] then some ty else none
  | some (.loc _) | none => none

mutual

/-- The Rust type of a written type, if it has one; lifetimes are erased. -/
def denote (Γ : TypeScope) : TypeNode → Option Ty
  | .path path args => do
      let args ← denoteAll Γ args
      denotePath Γ path args
  | .reference inner m _ => do
      let inner ← denote Γ inner
      return .ref inner m .dummy
  | .tuple elems => do
      let elems ← denoteAll Γ elems
      return .tuple elems
  | .array element (some length) => do
      let element ← denote Γ element
      return .array element length
  | .array element none => do
      let element ← denote Γ element
      return .slice element
  | .function _ params ret => do
      let params ← denoteAll Γ params
      let ret ← denoteReturn Γ ret
      return .fnPtr params ret
  | .never => some .never
  | .other => none

@[grind =] def denoteAll (Γ : TypeScope) : List TypeNode → Option (List Ty)
  | [] => some []
  | node :: nodes => do
      let ty ← denote Γ node
      let tys ← denoteAll Γ nodes
      return ty :: tys

def denoteReturn (Γ : TypeScope) : Option TypeNode → Option Ty
  | none => some (.tuple [])
  | some ret => denote Γ ret

end

mutual

/-- The modifiers of the functions in a written type, each with the numbers of the parts that lead
to the function. -/
def marks : TypeNode → List (List Nat × List Name)
  | .path _ args => marksAll 0 args
  | .reference inner _ _ => (marks inner).map fun mark => (0 :: mark.1, mark.2)
  | .tuple elems => marksAll 0 elems
  | .array element _ => (marks element).map fun mark => (0 :: mark.1, mark.2)
  | .function modifiers params ret =>
      (if modifiers = [] then [] else [([], modifiers)]) ++ marksAll 1 params ++ marksReturn ret
  | .never | .other => []

def marksAll (index : Nat) : List TypeNode → List (List Nat × List Name)
  | [] => []
  | node :: nodes =>
      (marks node).map (fun mark => (index :: mark.1, mark.2)) ++ marksAll (index + 1) nodes

def marksReturn : Option TypeNode → List (List Nat × List Name)
  | none => []
  | some ret => (marks ret).map fun mark => (0 :: mark.1, mark.2)

end

/-! ### Faithfulness -/

/-- What a lowering requires: the clauses it recorded, and whether the solver supports them. -/
def Lowered.requirements {α : Type} (lowered : Lowered α) :
    List WherePredicate × SolverEligibility :=
  (lowered.environments.flatMap (·.whereClauses),
    (lowered.environments.map (·.solverEligibility)).foldl SolverEligibility.and .eligible)

def inSignature (Γ : TypeScope) (node : TypeNode) : Lowered Ty := (parseType node).check Γ

def inBody (Γ : TypeScope) (node : TypeNode) : Lowered Ty := (parseType node).checkTy Γ

/-- The two lowerings of a written type agree. -/
structure Agree (Γ : TypeScope) (node : TypeNode) : Prop where
  diagnostics : (inSignature Γ node).diagnostics = [] ↔ (inBody Γ node).diagnostics = []
  same : (inSignature Γ node).diagnostics = [] ∨ (inBody Γ node).diagnostics = [] →
    (inSignature Γ node).value = (inBody Γ node).value ∧
      (inSignature Γ node).requirements = (inBody Γ node).requirements

/-- Two written types that denote different types are lowered to different ones.  `read` says which
types with modifiers are the same in Rust, as those that an alias stands for. -/
def Distinct {R : Type} (Γ : TypeScope) (read : Ty → List (List Nat × List Name) → R)
    (node node' : TypeNode) : Prop :=
  ∀ ty ty', denote Γ node = some ty → denote Γ node' = some ty' →
    read ty (marks node) ≠ read ty' (marks node') →
    (inSignature Γ node).value ≠ (inSignature Γ node').value ∧
      (inBody Γ node).value ≠ (inBody Γ node').value

/-- What is claimed of two written types. -/
structure Faithful {R : Type} (Γ : TypeScope) (read : Ty → List (List Nat × List Name) → R)
    (node node' : TypeNode) : Prop where
  left : Agree Γ node
  right : Agree Γ node'
  distinct : Distinct Γ read node node'

/-! ### The condition -/

mutual

/-- The written types in a written type. -/
def parts : TypeNode → List TypeNode
  | .path path args => partsAll args ++ [.path path args]
  | .reference inner m lifetime => parts inner ++ [.reference inner m lifetime]
  | .tuple elems => partsAll elems ++ [.tuple elems]
  | .array element length => parts element ++ [.array element length]
  | .function modifiers params ret =>
      partsAll params ++ (partsReturn ret ++ [.function modifiers params ret])
  | .never => [.never]
  | .other => [.other]

def partsAll : List TypeNode → List TypeNode
  | [] => []
  | node :: nodes => parts node ++ partsAll nodes

def partsReturn : Option TypeNode → List TypeNode
  | none => []
  | some ret => parts ret

end

/-- Not a type in either lowering. -/
def Rejected (Γ : TypeScope) : TypeNode → Prop
  | .path path args =>
      match (Γ.resolve path).head? with
      | some (.sym sym) =>
          match Γ.data sym with
          | .extAdt signature => ¬AcceptsExternal signature args.length
          | _ => False
      | some (.param _) | some (.selfTy _) => False
      | some (.loc _) | none => True
  | .other => True
  | _ => False

/-- Not a type in a body only. -/
def Loose (Γ : TypeScope) : TypeNode → Prop
  | .path path args =>
      match (Γ.resolve path).head? with
      | some (.sym sym) =>
          match Γ.data sym with
          | .localStruct sig => typeParameterCount sig.generics ≠ args.length
          | .localEnum sig => typeParameterCount sig.generics ≠ args.length
          | .other => True
          | _ => False
      | _ => False
  | _ => False

/-- What the definition of a local struct or enum requires of its parameters. -/
def localEnvironment (Γ : TypeScope) : TypeNode → List CheckedParameterEnv
  | .path path _ =>
      match (Γ.resolve path).head? with
      | some (.sym sym) =>
          match Γ.data sym with
          | .localStruct sig => [sig.value.parameterEnv]
          | .localEnum sig => [sig.value.parameterEnv]
          | _ => []
      | _ => []
  | _ => []

/-- And an external one. -/
def externalEnvironment (Γ : TypeScope) : TypeNode → List CheckedParameterEnv
  | .path path _ =>
      match (Γ.resolve path).head? with
      | some (.sym sym) =>
          match Γ.data sym with
          | .extAdt (some signature) => [signature.parameterEnv]
          | _ => []
      | _ => []
  | _ => []

/-- A part is no type in either lowering; or every part is one in both, the local definitions that
are named require nothing, and where the solver does not support one of them, it does not support
an external one either. -/
def Uniform (Γ : TypeScope) (node : TypeNode) : Prop :=
  (∃ part ∈ parts node, Rejected Γ part) ∨
    (∀ part ∈ parts node, ¬Loose Γ part) ∧
    (∀ part ∈ parts node, ∀ environment ∈ localEnvironment Γ part,
      environment.whereClauses = []) ∧
    ((∀ part ∈ parts node, ∀ environment ∈ externalEnvironment Γ part,
        environment.solverEligibility = .eligible) →
      ∀ part ∈ parts node, ∀ environment ∈ localEnvironment Γ part,
        environment.solverEligibility = .eligible)

mutual

/-- What the parser sees of a written type: no lengths, no slices and no modifiers. -/
def flatten : TypeNode → TypeNode
  | .path path args => .path path (flattenAll args)
  | .reference inner m lifetime => .reference (flatten inner) m lifetime
  | .tuple elems => .tuple (flattenAll elems)
  | .array element _ => .array (flatten element) (some (.literal 0))
  | .function _ params ret => .function [] (flattenAll params) (flattenReturn ret)
  | .never => .never
  | .other => .other

def flattenAll : List TypeNode → List TypeNode
  | [] => []
  | node :: nodes => flatten node :: flattenAll nodes

def flattenReturn : Option TypeNode → Option TypeNode
  | none => none
  | some ret => some (flatten ret)

end

/-- Types that only differ where the parser does not look denote the same. -/
def Separate {R : Type} (Γ : TypeScope) (read : Ty → List (List Nat × List Name) → R)
    (node node' : TypeNode) : Prop :=
  ∀ ty ty', denote Γ node = some ty → denote Γ node' = some ty' →
    denote Γ (flatten node) = denote Γ (flatten node') →
    read ty (marks node) = read ty' (marks node')

/-! ### External definitions -/

theorem applyArguments_isOk : ∀ (rows : List (GenericParam × GenericDefault)) (explicit : List Ty)
    (substitution : ParamSubst), (∃ applied, applyArguments rows explicit substitution =
      .ok applied) ↔ acceptsArguments rows explicit.length = true
  | [], [], _ => iff_of_true ⟨_, rfl⟩ rfl
  | [], _ :: _, _ => iff_of_false (by rintro ⟨_, h⟩; cases h) Bool.false_ne_true
  | (generic, default) :: rows, explicit, substitution => by
      unfold applyArguments acceptsArguments
      by_cases hkind : generic.kind ≠ .type
      · rw [if_pos hkind, if_pos hkind]
        exact applyArguments_isOk rows explicit substitution
      · rw [if_neg hkind, if_neg hkind]
        -- what the rest of the rows does with any substitution
        have hrest : ∀ (argument : Ty) (explicit : List Ty),
            (∃ applied, (do
              let rest ← applyArguments rows explicit (substitution.insert (generic, argument))
              return (argument :: rest.1, rest.2)) =
                (Except.ok applied : Except ApplyExternalAdtError (List Ty × ParamSubst))) ↔
              acceptsArguments rows explicit.length = true := by
          intro argument explicit
          rw [← applyArguments_isOk rows explicit (substitution.insert (generic, argument))]
          cases applyArguments rows explicit (substitution.insert (generic, argument)) with
          | error error => exact iff_of_false (by rintro ⟨_, h⟩; cases h) (by rintro ⟨_, h⟩; cases h)
          | ok applied => exact ⟨fun _ => ⟨applied, rfl⟩, fun _ => ⟨_, rfl⟩⟩
        cases explicit with
        | cons argument explicit => exact hrest argument explicit
        | nil =>
          cases default with
          | type default => exact hrest (substitute substitution default) []
          | absent | unsupported => exact iff_of_false (by rintro ⟨_, h⟩; cases h) Bool.false_ne_true

/-- Whether the arguments are accepted depends on how many there are. -/
theorem applyExternalAdtSignature_isOk (signature : Option ExternalAdtSignature)
    (explicit : List Ty) : (∃ applied, applyExternalAdtSignature signature explicit =
      .ok applied) ↔ AcceptsExternal signature explicit.length := by
  cases signature with
  | none => exact iff_of_false (by rintro ⟨_, h⟩; cases h) id
  | some signature =>
    rw [applyExternalAdtSignature, AcceptsExternal]
    by_cases hcomplete : signature.ordinaryComplete = true
    · rw [if_neg (not_not_intro hcomplete)]
      by_cases hlength : signature.generics.length = signature.defaults.length
      · rw [if_neg (not_not_intro hlength)]
        by_cases hcount : typeParameterCount signature.generics < explicit.length
        · rw [if_pos hcount]
          exact iff_of_false (by rintro ⟨_, h⟩; cases h) fun h => Nat.not_lt.mpr h.2.2.1 hcount
        · rw [if_neg hcount]
          have hok := applyArguments_isOk (signature.generics.zip signature.defaults) explicit
            fun _ => none
          cases happlied : applyArguments (signature.generics.zip signature.defaults) explicit
              fun _ => none with
          | error error =>
            rw [happlied] at hok
            have herror : ¬∃ applied : List Ty × ParamSubst,
                Except.error (ε := ApplyExternalAdtError) error = .ok applied := by
              rintro ⟨_, h⟩
              cases h
            exact iff_of_false (by rintro ⟨_, h⟩; cases h) fun h => herror (hok.mpr h.2.2.2)
          | ok applied =>
            rw [happlied] at hok
            exact ⟨fun _ => ⟨hcomplete, hlength, Nat.not_lt.mp hcount, hok.mp ⟨_, rfl⟩⟩,
              fun _ => ⟨_, rfl⟩⟩
      · rw [if_pos hlength]
        exact iff_of_false (by rintro ⟨_, h⟩; cases h) fun h => hlength h.2.1
    · rw [if_pos hcomplete]
      exact iff_of_false (by rintro ⟨_, h⟩; cases h) fun h => hcomplete h.1

/-- The environment is that of the declaration, with other types. -/
theorem applyExternalAdtSignature_eligibility {signature : Option ExternalAdtSignature}
    {explicit : List Ty} {applied : AppliedExternalAdt}
    (h : applyExternalAdtSignature signature explicit = .ok applied) :
    ∃ declared, signature = some declared ∧
      applied.parameterEnv.solverEligibility = declared.parameterEnv.solverEligibility := by
  cases signature with
  | none => cases h
  | some signature =>
    refine ⟨signature, rfl, ?_⟩
    rw [applyExternalAdtSignature] at h
    split at h
    · cases h
    split at h
    · cases h
    split at h
    · cases h
    cases happlied : applyArguments (signature.generics.zip signature.defaults) explicit
        fun _ => none with
    | error error =>
      rw [happlied] at h
      cases h
    | ok result =>
      rw [happlied] at h
      cases h
      rfl

/-! ### Comparing the lowerings -/

namespace Lowered

variable {α β : Type}

def clauses (lowered : Lowered α) : List WherePredicate :=
  lowered.environments.flatMap (·.whereClauses)

/-- The solver supports everything that is required. -/
def Supported (lowered : Lowered α) : Prop :=
  ∀ environment ∈ lowered.environments, environment.solverEligibility = .eligible

@[simp] theorem bind_diagnostics (x : Lowered α) (f : α → Lowered β) :
    (x >>= f).diagnostics = x.diagnostics ++ (f x.value).diagnostics := rfl

@[simp] theorem bind_environments (x : Lowered α) (f : α → Lowered β) :
    (x >>= f).environments = x.environments ++ (f x.value).environments := rfl

theorem clauses_bind (x : Lowered α) (f : α → Lowered β) :
    (x >>= f).clauses = x.clauses ++ (f x.value).clauses := List.flatMap_append

theorem supported_bind (x : Lowered α) (f : α → Lowered β) :
    (x >>= f).Supported ↔ x.Supported ∧ (f x.value).Supported := List.forall_mem_append

theorem supported_pure (a : α) : (pure a : Lowered α).Supported :=
  fun _ h => absurd h List.not_mem_nil

theorem foldl_and_eq_eligible : ∀ (eligibilities : List SolverEligibility) (e : SolverEligibility),
    eligibilities.foldl SolverEligibility.and e = .eligible ↔
      e = .eligible ∧ ∀ e' ∈ eligibilities, e' = .eligible
  | [], e => by simp
  | e' :: eligibilities, e => by
      rw [List.foldl_cons, foldl_and_eq_eligible eligibilities, List.forall_mem_cons,
        SolverEligibility.and]
      cases e <;> cases e' <;> simp

theorem requirements_eq_iff {x y : Lowered α} : x.requirements = y.requirements ↔
    x.clauses = y.clauses ∧ (x.Supported ↔ y.Supported) := by
  have hsupported : ∀ z : Lowered α, z.requirements.2 = .eligible ↔ z.Supported := by
    intro z
    rw [requirements, foldl_and_eq_eligible, List.forall_mem_map, and_iff_right rfl]
    rfl
  have hsecond : x.requirements.2 = y.requirements.2 ↔ (x.Supported ↔ y.Supported) := by
    rw [← hsupported, ← hsupported]
    cases x.requirements.2 <;> cases y.requirements.2 <;> simp
  rw [Prod.ext_iff, hsecond]
  rfl

end Lowered

/-- The clauses of the local definitions that some written types name. -/
def localClauses (Γ : TypeScope) (nodes : List TypeNode) : List WherePredicate :=
  nodes.flatMap fun node => (localEnvironment Γ node).flatMap (·.whereClauses)

/-- How a lowering in a signature and one in a body compare, where `nodes` are the written types
that were lowered on the way. -/
structure Compares {α : Type} (Γ : TypeScope) (nodes : List TypeNode)
    (signature body : Lowered α) : Prop where
  signature_clean : signature.diagnostics = [] ↔ ∀ node ∈ nodes, ¬Rejected Γ node
  body_clean : body.diagnostics = [] ↔ ∀ node ∈ nodes, ¬Rejected Γ node ∧ ¬Loose Γ node
  value : body.diagnostics = [] → signature.value = body.value
  sublist : body.diagnostics = [] → signature.clauses.Sublist body.clauses
  length : body.diagnostics = [] →
    body.clauses.length = signature.clauses.length + (localClauses Γ nodes).length
  supported : body.diagnostics = [] → (signature.Supported ↔
    ∀ node ∈ nodes, ∀ environment ∈ externalEnvironment Γ node,
      environment.solverEligibility = .eligible)
  local_supported : body.diagnostics = [] → (body.Supported ↔ signature.Supported ∧
    ∀ node ∈ nodes, ∀ environment ∈ localEnvironment Γ node,
      environment.solverEligibility = .eligible)

/-- A written type that names nothing. -/
structure NoHead (Γ : TypeScope) (node : TypeNode) : Prop where
  accepted : ¬Rejected Γ node
  strict : ¬Loose Γ node
  no_local : localEnvironment Γ node = []
  no_external : externalEnvironment Γ node = []

namespace Compares

variable {α β : Type} {Γ : TypeScope} {nodes nodes' : List TypeNode} {x y : Lowered α}
  {f g : α → Lowered β}

theorem bind (h : Compares Γ nodes x y)
    (hsig : (f x.value).diagnostics = [] ↔ ∀ node ∈ nodes', ¬Rejected Γ node)
    (hbody : (g y.value).diagnostics = [] ↔ ∀ node ∈ nodes', ¬Rejected Γ node ∧ ¬Loose Γ node)
    (hrest : x.value = y.value → Compares Γ nodes' (f x.value) (g y.value)) :
    Compares Γ (nodes ++ nodes') (x >>= f) (y >>= g) := by
  -- when the body reports nothing, both go on with the same value
  have hclean : (y >>= g).diagnostics = [] →
      y.diagnostics = [] ∧ (g y.value).diagnostics = [] := List.append_eq_nil_iff.mp
  have hnext : (y >>= g).diagnostics = [] → Compares Γ nodes' (f x.value) (g y.value) :=
    fun hnil => hrest (h.value (hclean hnil).1)
  constructor
  · rw [Lowered.bind_diagnostics, List.append_eq_nil_iff, h.signature_clean, hsig,
      List.forall_mem_append]
  · rw [Lowered.bind_diagnostics, List.append_eq_nil_iff, h.body_clean, hbody,
      List.forall_mem_append]
  · intro hnil
    exact (hnext hnil).value (hclean hnil).2
  · intro hnil
    rw [Lowered.clauses_bind, Lowered.clauses_bind]
    exact (h.sublist (hclean hnil).1).append ((hnext hnil).sublist (hclean hnil).2)
  · intro hnil
    rw [Lowered.clauses_bind, Lowered.clauses_bind, List.length_append, List.length_append,
      h.length (hclean hnil).1, (hnext hnil).length (hclean hnil).2, localClauses, localClauses,
      localClauses, List.flatMap_append, List.length_append]
    omega
  · intro hnil
    rw [Lowered.supported_bind, h.supported (hclean hnil).1, (hnext hnil).supported (hclean hnil).2,
      List.forall_mem_append]
  · intro hnil
    rw [Lowered.supported_bind, Lowered.supported_bind, h.local_supported (hclean hnil).1,
      (hnext hnil).local_supported (hclean hnil).2, List.forall_mem_append]
    tauto

theorem nil (a : α) : Compares Γ [] (pure a) (pure a) where
  signature_clean := iff_of_true rfl fun _ h => absurd h List.not_mem_nil
  body_clean := iff_of_true rfl fun _ h => absurd h List.not_mem_nil
  value _ := rfl
  sublist _ := .refl _
  length _ := rfl
  supported _ := iff_of_true (Lowered.supported_pure a) fun _ h => absurd h List.not_mem_nil
  local_supported _ := iff_of_true (Lowered.supported_pure a)
    ⟨Lowered.supported_pure a, fun _ h => absurd h List.not_mem_nil⟩

theorem pure_of_noHead {node : TypeNode} (h : NoHead Γ node) (a : α) :
    Compares Γ [node] (pure a) (pure a) where
  signature_clean := iff_of_true rfl (List.forall_mem_singleton.mpr h.accepted)
  body_clean := iff_of_true rfl (List.forall_mem_singleton.mpr ⟨h.accepted, h.strict⟩)
  value _ := rfl
  sublist _ := .refl _
  length _ := by
    rw [localClauses, List.flatMap_singleton, h.no_local]
    rfl
  supported _ := iff_of_true (Lowered.supported_pure a) (List.forall_mem_singleton.mpr (by
    rw [h.no_external]
    exact fun _ h => absurd h List.not_mem_nil))
  local_supported _ := iff_of_true (Lowered.supported_pure a)
    ⟨Lowered.supported_pure a, List.forall_mem_singleton.mpr (by
      rw [h.no_local]
      exact fun _ h => absurd h List.not_mem_nil)⟩

/-- A form with the lowered parts in it. -/
theorem form {node : TypeNode} (h : Compares Γ nodes x y) (hnoHead : NoHead Γ node) (f : α → β) :
    Compares Γ (nodes ++ [node]) (x >>= fun a => pure (f a)) (y >>= fun a => pure (f a)) :=
  h.bind (pure_of_noHead hnoHead (f x.value)).signature_clean
    (pure_of_noHead hnoHead (f y.value)).body_clean
    fun heq => heq ▸ pure_of_noHead hnoHead (f x.value)

/-- The lowered parts of one list. -/
theorem map (h : Compares Γ nodes x y) (f : α → β) :
    Compares Γ nodes (x >>= fun a => pure (f a)) (y >>= fun a => pure (f a)) := by
  have hbind := h.bind (f := fun a => pure (f a)) (g := fun a => pure (f a))
    (nil (Γ := Γ) (f x.value)).signature_clean (nil (f y.value)).body_clean
    fun heq => heq ▸ nil (f x.value)
  rwa [List.append_nil] at hbind

end Compares

/-! ### Paths -/

/-- What a signature does with a path and its lowered arguments. -/
def signatureHead (Γ : TypeScope) (path : Path) (args : List Ty) : Lowered Ty :=
  match (Γ.resolve path).head? with
  | some (.param param) => return .param param
  | some (.sym sym) => resolutionToTy Γ sym args
  | some (.selfTy ty) => return ty
  | some (.loc _) | none => return .error (← Lowered.report "unresolved type")

/-- And what a body does. -/
def bodyHead (Γ : TypeScope) (path : Path) (args : List Ty) : Lowered Ty :=
  match (Γ.resolve path).head? with
  | some (.sym sym) => symbolToTy Γ sym args
  | some (.param param) => return .param param
  | some (.selfTy ty) => return ty
  | some (.loc _) | none => return .error (← Lowered.report "unresolved type")

section

variable {Γ : TypeScope}

theorem check_path (path : Path) (args : List TypeCst) :
    TypeCst.check Γ (.path path args) = TypeCst.checkAll Γ args >>= signatureHead Γ path := by
  rw [TypeCst.check]
  rfl

theorem checkTy_path (path : Path) (args : List TypeCst) :
    TypeCst.checkTy Γ (.path path args) = TypeCst.checkTyAll Γ args >>= bodyHead Γ path := by
  rw [TypeCst.checkTy]
  rfl

theorem checkTyAll_length (args : List TypeCst) :
    (TypeCst.checkTyAll Γ args).value.length = args.length := by
  induction args with
  | nil => rfl
  | cons arg args ih => exact congrArg (· + 1) ih

theorem parseTypes_length (nodes : List TypeNode) : (parseTypes nodes).length = nodes.length := by
  induction nodes with
  | nil => rfl
  | cons node nodes ih => exact congrArg (· + 1) ih

namespace Compares

variable {α : Type} {node : TypeNode} {x y : Lowered α}

/-- Both report. -/
theorem rejected (h : Rejected Γ node) (hx : x.diagnostics ≠ []) (hy : y.diagnostics ≠ []) :
    Compares Γ [node] x y where
  signature_clean := iff_of_false hx fun hall => hall node List.mem_cons_self h
  body_clean := iff_of_false hy fun hall => (hall node List.mem_cons_self).1 h
  value hnil := absurd hnil hy
  sublist hnil := absurd hnil hy
  length hnil := absurd hnil hy
  supported hnil := absurd hnil hy
  local_supported hnil := absurd hnil hy

/-- Only the body reports. -/
theorem loose (haccepted : ¬Rejected Γ node) (h : Loose Γ node) (hx : x.diagnostics = [])
    (hy : y.diagnostics ≠ []) : Compares Γ [node] x y where
  signature_clean := iff_of_true hx (List.forall_mem_singleton.mpr haccepted)
  body_clean := iff_of_false hy fun hall => (hall node List.mem_cons_self).2 h
  value hnil := absurd hnil hy
  sublist hnil := absurd hnil hy
  length hnil := absurd hnil hy
  supported hnil := absurd hnil hy
  local_supported hnil := absurd hnil hy

/-- Both record the environment of an external definition. -/
theorem external {declared : CheckedParameterEnv} (haccepted : ¬Rejected Γ node)
    (hstrict : ¬Loose Γ node) (hlocal : localEnvironment Γ node = [])
    (hexternal : externalEnvironment Γ node = [declared]) {environment : CheckedParameterEnv}
    (heligibility : environment.solverEligibility = declared.solverEligibility) (a : α) :
    Compares Γ [node] (Lowered.recordEnv environment >>= fun _ => pure a)
      (Lowered.recordEnv environment >>= fun _ => pure a) where
  signature_clean := iff_of_true rfl (List.forall_mem_singleton.mpr haccepted)
  body_clean := iff_of_true rfl (List.forall_mem_singleton.mpr ⟨haccepted, hstrict⟩)
  value _ := rfl
  sublist _ := .refl _
  length _ := by
    rw [localClauses, List.flatMap_singleton, hlocal]
    rfl
  supported _ := by
    rw [List.forall_mem_singleton, hexternal, List.forall_mem_singleton, ← heligibility]
    exact List.forall_mem_singleton
  local_supported _ := by
    rw [List.forall_mem_singleton, hlocal]
    exact (and_iff_left fun _ h => absurd h List.not_mem_nil).symm

/-- Only the body records the environment of a local definition. -/
theorem local_ {declared : CheckedParameterEnv} (haccepted : ¬Rejected Γ node)
    (hstrict : ¬Loose Γ node) (hlocal : localEnvironment Γ node = [declared])
    (hexternal : externalEnvironment Γ node = []) (foldTy : Ty → Ty) (a : α) :
    Compares Γ [node] (pure a)
      (Lowered.recordEnv (foldParameterEnv foldTy declared) >>= fun _ => pure a) where
  signature_clean := iff_of_true rfl (List.forall_mem_singleton.mpr haccepted)
  body_clean := iff_of_true rfl (List.forall_mem_singleton.mpr ⟨haccepted, hstrict⟩)
  value _ := rfl
  sublist _ := List.nil_sublist _
  length _ := by
    rw [localClauses, List.flatMap_singleton, hlocal, Lowered.clauses, Lowered.clauses]
    simp [foldParameterEnv, Lowered.recordEnv, pure]
  supported _ := iff_of_true (Lowered.supported_pure a) (List.forall_mem_singleton.mpr (by
    rw [hexternal]
    exact fun _ h => absurd h List.not_mem_nil))
  local_supported _ := by
    rw [List.forall_mem_singleton, hlocal, List.forall_mem_singleton,
      and_iff_right (Lowered.supported_pure a)]
    exact List.forall_mem_singleton

end Compares

/-- A local definition: the number of arguments is counted in the body only. -/
theorem localAdt_compares {node : TypeNode} {generics : List GenericParam}
    {declared : CheckedParameterEnv} (haccepted : ¬Rejected Γ node) {args : List Ty}
    (hloose : Loose Γ node ↔ typeParameterCount generics ≠ args.length)
    (hlocal : localEnvironment Γ node = [declared]) (hexternal : externalEnvironment Γ node = [])
    (sym : Symbol) (foldTy : List Ty → Ty → Ty) :
    Compares Γ [node] (pure (.adt sym args)) (checkLocalAdt sym generics
      (fun args => foldParameterEnv (foldTy args) declared) args) := by
  rw [checkLocalAdt]
  by_cases hcount : typeParameterCount generics ≠ args.length
  · rw [if_pos hcount]
    exact .loose haccepted (hloose.mpr hcount) rfl (List.cons_ne_nil _ _)
  · rw [if_neg hcount]
    exact .local_ haccepted (fun h => hcount (hloose.mp h)) hlocal hexternal (foldTy args)
      (Ty.adt sym args)

theorem externalAdt_compares {node : TypeNode} {signature : Option ExternalAdtSignature}
    {args : List Ty} (hrejected : Rejected Γ node ↔ ¬AcceptsExternal signature args.length)
    (hstrict : ¬Loose Γ node) (hlocal : localEnvironment Γ node = [])
    (hexternal : ∀ declared, signature = some declared →
      externalEnvironment Γ node = [declared.parameterEnv]) (sym : Symbol) :
    Compares Γ [node] (checkExternalAdt sym signature args)
      (checkExternalAdt sym signature args) := by
  have hok := applyExternalAdtSignature_isOk signature args
  rw [checkExternalAdt]
  cases happlied : applyExternalAdtSignature signature args with
  | error error =>
    rw [happlied] at hok
    refine .rejected (hrejected.mpr fun haccepts => ?_) (List.cons_ne_nil _ _)
      (List.cons_ne_nil _ _)
    obtain ⟨_, heq⟩ := hok.mpr haccepts
    cases heq
  | ok applied =>
    obtain ⟨declared, hdeclared, heligibility⟩ := applyExternalAdtSignature_eligibility happlied
    refine .external (fun h => hrejected.mp h (hok.mp ⟨applied, happlied⟩)) hstrict hlocal
      (hexternal declared hdeclared) heligibility _

/-- Both heads compare, on the same arguments. -/
theorem head_compares (path : Path) (nodes : List TypeNode) {args : List Ty}
    (hlength : args.length = nodes.length) :
    Compares Γ [.path path nodes] (signatureHead Γ path args) (bodyHead Γ path args) := by
  rw [signatureHead, bodyHead]
  cases hres : (Γ.resolve path).head? with
  | none =>
    exact .rejected (by simp [Rejected, hres]) (List.cons_ne_nil _ _) (List.cons_ne_nil _ _)
  | some resolution =>
    cases resolution with
    | loc id =>
      exact .rejected (by simp [Rejected, hres]) (List.cons_ne_nil _ _) (List.cons_ne_nil _ _)
    | param param =>
      exact .pure_of_noHead (by constructor <;> simp [Rejected, Loose, localEnvironment,
        externalEnvironment, hres]) _
    | selfTy ty =>
      exact .pure_of_noHead (by constructor <;> simp [Rejected, Loose, localEnvironment,
        externalEnvironment, hres]) _
    | sym sym =>
      dsimp only
      rw [resolutionToTy, symbolToTy]
      cases hdata : Γ.data sym with
      | intrinsicType intrinsic =>
        exact .pure_of_noHead (by constructor <;> simp [Rejected, Loose, localEnvironment,
          externalEnvironment, hres, hdata]) _
      | typeAlias def_ =>
        exact .pure_of_noHead (by constructor <;> simp [Rejected, Loose, localEnvironment,
          externalEnvironment, hres, hdata]) _
      | trait =>
        exact .pure_of_noHead (by constructor <;> simp [Rejected, Loose, localEnvironment,
          externalEnvironment, hres, hdata]) _
      | other =>
        exact .loose (by simp [Rejected, hres, hdata]) (by simp [Loose, hres, hdata]) rfl
          (List.cons_ne_nil _ _)
      | localStruct sig =>
        exact localAdt_compares (by simp [Rejected, hres, hdata])
          (by simp [Loose, hres, hdata, hlength])
          (by simp only [localEnvironment, hres, hdata])
          (by simp [externalEnvironment, hres, hdata]) sym
          fun args => substitute (buildTypeSubstMap sig.generics args)
      | localEnum sig =>
        exact localAdt_compares (by simp [Rejected, hres, hdata])
          (by simp [Loose, hres, hdata, hlength])
          (by simp only [localEnvironment, hres, hdata])
          (by simp [externalEnvironment, hres, hdata]) sym
          fun args => substitute (buildTypeSubstMap sig.generics args)
      | extAdt signature =>
        refine externalAdt_compares (by simp [Rejected, hres, hdata, hlength])
          (by simp [Loose, hres, hdata]) (by simp [localEnvironment, hres, hdata]) ?_ sym
        rintro declared rfl
        simp [externalEnvironment, hres, hdata]

/-! ### Written types -/

mutual

theorem compares : ∀ node, Compares Γ (parts node) (inSignature Γ node) (inBody Γ node)
  | .path path args => by
      have hargs := comparesAll args
      rw [inSignature, inBody, parseType, check_path, checkTy_path, parts]
      refine hargs.bind (head_compares path args ?_).signature_clean
        (head_compares path args ?_).body_clean fun heq => heq ▸ head_compares path args ?_
      · rw [checkAll_length, parseTypes_length]
      · rw [checkTyAll_length, parseTypes_length]
      · rw [checkAll_length, parseTypes_length]
  | .reference inner m lifetime => by
      rw [inSignature, inBody, parseType, TypeCst.check, TypeCst.checkTy, parts]
      exact (compares inner).form ⟨id, id, rfl, rfl⟩ fun ty => Ty.ref ty m .dummy
  | .tuple elems => by
      rw [inSignature, inBody, parseType, TypeCst.check, TypeCst.checkTy, parts]
      exact (comparesAll elems).form ⟨id, id, rfl, rfl⟩ Ty.tuple
  | .array element length => by
      rw [inSignature, inBody, parseType, TypeCst.check, TypeCst.checkTy, parts]
      exact (compares element).form ⟨id, id, rfl, rfl⟩ fun ty => Ty.array ty (.literal 0)
  | .function modifiers params ret => by
      rw [inSignature, inBody, parseType, TypeCst.check, TypeCst.checkTy, parts]
      have hnoHead : NoHead Γ (.function modifiers params ret) := ⟨id, id, rfl, rfl⟩
      have hret := fun params' : List Ty =>
        (comparesReturn ret).form hnoHead fun ty => Ty.fnPtr params' ty
      exact (comparesAll params).bind (hret _).signature_clean (hret _).body_clean
        fun heq => heq ▸ hret _
  | .never => by
      rw [inSignature, inBody, parseType, TypeCst.check, TypeCst.checkTy, parts]
      exact .pure_of_noHead ⟨id, id, rfl, rfl⟩ Ty.never
  | .other => by
      rw [inSignature, inBody, parseType, TypeCst.check, TypeCst.checkTy, parts]
      exact .rejected trivial (List.cons_ne_nil _ _) (List.cons_ne_nil _ _)

theorem comparesAll : ∀ nodes, Compares Γ (partsAll nodes)
    (TypeCst.checkAll Γ (parseTypes nodes)) (TypeCst.checkTyAll Γ (parseTypes nodes))
  | [] => .nil []
  | node :: nodes => by
      rw [parseTypes, TypeCst.checkAll, TypeCst.checkTyAll, partsAll]
      have hrest := fun ty : Ty => (comparesAll nodes).map fun tys => ty :: tys
      exact (compares node).bind (hrest _).signature_clean (hrest _).body_clean
        fun heq => heq ▸ hrest _

theorem comparesReturn : ∀ ret, Compares Γ (partsReturn ret)
    (TypeCst.checkReturn Γ (parseTypeOption ret)) (TypeCst.checkTyReturn Γ (parseTypeOption ret))
  | none => .nil _
  | some ret => compares ret

end

end

/-! ### Denotation -/

section

variable {Γ : TypeScope}

theorem value_of_denoteSymbol {sym : Symbol} {args : List Ty} {ty : Ty}
    (h : denoteSymbol Γ sym args = some ty) :
    (resolutionToTy Γ sym args).value = ty ∧ (symbolToTy Γ sym args).value = ty := by
  rw [resolutionToTy, symbolToTy]
  rw [denoteSymbol] at h
  cases hdata : Γ.data sym with
  | intrinsicType intrinsic =>
    simp only [hdata, Option.ite_none_right_eq_some, Option.some.injEq] at h
    exact ⟨h.2, h.2⟩
  | typeAlias def_ =>
    simp only [hdata, Option.some.injEq] at h
    exact ⟨h, h⟩
  | localStruct sig | localEnum sig =>
    simp only [hdata, Option.ite_none_right_eq_some, Option.some.injEq] at h
    refine ⟨h.2, ?_⟩
    dsimp only
    rw [checkLocalAdt, if_neg (not_not_intro h.1)]
    exact h.2
  | extAdt signature =>
    simp only [hdata] at h
    dsimp only
    rw [checkExternalAdt]
    cases happlied : applyExternalAdtSignature signature args with
    | error error =>
      rw [happlied] at h
      cases h
    | ok applied =>
      rw [happlied] at h
      exact ⟨Option.some.inj h, Option.some.inj h⟩
  | trait | other =>
    simp only [hdata] at h
    cases h

theorem value_of_denotePath {path : Path} {args : List Ty} {ty : Ty}
    (h : denotePath Γ path args = some ty) :
    (signatureHead Γ path args).value = ty ∧ (bodyHead Γ path args).value = ty := by
  rw [signatureHead, bodyHead]
  rw [denotePath] at h
  cases hres : (Γ.resolve path).head? with
  | none =>
    rw [hres] at h
    cases h
  | some resolution =>
    rw [hres] at h
    cases resolution with
    | loc id => cases h
    | param param =>
      simp only [Option.ite_none_right_eq_some, Option.some.injEq] at h
      exact ⟨h.2, h.2⟩
    | selfTy self =>
      simp only [Option.ite_none_right_eq_some, Option.some.injEq] at h
      exact ⟨h.2, h.2⟩
    | sym sym => exact value_of_denoteSymbol h

mutual

/-- Both lowerings give what is denoted as far as the parser looks. -/
theorem lowered_eq : ∀ node ty, denote Γ (flatten node) = some ty →
    (inSignature Γ node).value = ty ∧ (inBody Γ node).value = ty
  | .path path args, ty, h => by
      rw [flatten, denote, Option.bind_eq_bind, Option.bind_eq_some_iff] at h
      obtain ⟨tys, htys, h⟩ := h
      obtain ⟨hsig, hbody⟩ := loweredAll_eq args tys htys
      rw [inSignature, inBody, parseType, check_path, checkTy_path, Lowered.bind_value,
        Lowered.bind_value, hsig, hbody]
      exact value_of_denotePath h
  | .reference inner m lifetime, ty, h => by
      rw [flatten, denote, Option.bind_eq_bind, Option.bind_eq_some_iff] at h
      obtain ⟨ty', hty', h⟩ := h
      obtain ⟨hsig, hbody⟩ := lowered_eq inner ty' hty'
      cases h
      exact ⟨congrArg (Ty.ref · m .dummy) hsig, congrArg (Ty.ref · m .dummy) hbody⟩
  | .tuple elems, ty, h => by
      rw [flatten, denote, Option.bind_eq_bind, Option.bind_eq_some_iff] at h
      obtain ⟨tys, htys, h⟩ := h
      obtain ⟨hsig, hbody⟩ := loweredAll_eq elems tys htys
      cases h
      exact ⟨congrArg Ty.tuple hsig, congrArg Ty.tuple hbody⟩
  | .array element length, ty, h => by
      rw [flatten, denote, Option.bind_eq_bind, Option.bind_eq_some_iff] at h
      obtain ⟨ty', hty', h⟩ := h
      obtain ⟨hsig, hbody⟩ := lowered_eq element ty' hty'
      cases h
      exact ⟨congrArg (Ty.array · (.literal 0)) hsig, congrArg (Ty.array · (.literal 0)) hbody⟩
  | .function modifiers params ret, ty, h => by
      rw [flatten, denote, Option.bind_eq_bind, Option.bind_eq_some_iff] at h
      obtain ⟨tys, htys, h⟩ := h
      rw [Option.bind_eq_bind, Option.bind_eq_some_iff] at h
      obtain ⟨ty', hty', h⟩ := h
      obtain ⟨hsig, hbody⟩ := loweredAll_eq params tys htys
      obtain ⟨hsig', hbody'⟩ := loweredReturn_eq ret ty' hty'
      cases h
      exact ⟨congrArg₂ Ty.fnPtr hsig hsig', congrArg₂ Ty.fnPtr hbody hbody'⟩
  | .never, ty, h => by
      cases h
      exact ⟨rfl, rfl⟩
  | .other, ty, h => by
      cases h

theorem loweredAll_eq : ∀ nodes tys, denoteAll Γ (flattenAll nodes) = some tys →
    (TypeCst.checkAll Γ (parseTypes nodes)).value = tys ∧
      (TypeCst.checkTyAll Γ (parseTypes nodes)).value = tys
  | [], tys, h => by
      cases h
      exact ⟨rfl, rfl⟩
  | node :: nodes, tys, h => by
      rw [flattenAll, denoteAll, Option.bind_eq_bind, Option.bind_eq_some_iff] at h
      obtain ⟨ty, hty, h⟩ := h
      rw [Option.bind_eq_bind, Option.bind_eq_some_iff] at h
      obtain ⟨tys', htys, h⟩ := h
      obtain ⟨hsig, hbody⟩ := lowered_eq node ty hty
      obtain ⟨hsigs, hbodies⟩ := loweredAll_eq nodes tys' htys
      cases h
      exact ⟨congrArg₂ List.cons hsig hsigs, congrArg₂ List.cons hbody hbodies⟩

theorem loweredReturn_eq : ∀ ret ty, denoteReturn Γ (flattenReturn ret) = some ty →
    (TypeCst.checkReturn Γ (parseTypeOption ret)).value = ty ∧
      (TypeCst.checkTyReturn Γ (parseTypeOption ret)).value = ty
  | none, ty, h => by
      cases h
      exact ⟨rfl, rfl⟩
  | some ret, ty, h => lowered_eq ret ty h

end

/-- Whether a name with arguments denotes a type depends on how many arguments it has. -/
theorem denotePath_isSome {path : Path} {args args' : List Ty}
    (hlength : args.length = args'.length)
    (h : (denotePath Γ path args).isSome) : (denotePath Γ path args').isSome := by
  have hnil : args = [] → args' = [] := fun hnil =>
    List.eq_nil_of_length_eq_zero (hlength.symm.trans (congrArg List.length hnil))
  rw [denotePath] at h ⊢
  cases hres : (Γ.resolve path).head? with
  | none =>
    rw [hres] at h
    cases h
  | some resolution =>
    rw [hres] at h
    cases resolution with
    | loc id => cases h
    | param param =>
      simp only [Option.isSome_ite] at h ⊢
      exact hnil h
    | selfTy self =>
      simp only [Option.isSome_ite] at h ⊢
      exact hnil h
    | sym sym =>
      dsimp only at h ⊢
      rw [denoteSymbol] at h ⊢
      cases hdata : Γ.data sym with
      | intrinsicType intrinsic =>
        simp only [hdata, Option.isSome_ite] at h ⊢
        exact hnil h
      | typeAlias def_ => rfl
      | localStruct sig | localEnum sig =>
        simp only [hdata, Option.isSome_ite] at h ⊢
        exact h.trans hlength
      | extAdt signature =>
        simp only [hdata] at h ⊢
        have hok := applyExternalAdtSignature_isOk signature args
        have hok' := applyExternalAdtSignature_isOk signature args'
        rw [← hlength, ← hok] at hok'
        cases happlied : applyExternalAdtSignature signature args with
        | error error =>
          rw [happlied] at h
          cases h
        | ok applied =>
          obtain ⟨applied', happlied'⟩ := hok'.mpr ⟨applied, happlied⟩
          rw [happlied']
          rfl
      | trait | other =>
        simp only [hdata] at h
        cases h

theorem denoteAll_length : ∀ {nodes : List TypeNode} {tys : List Ty},
    denoteAll Γ nodes = some tys → tys.length = nodes.length
  | [], _, h => by
      cases h
      rfl
  | node :: nodes, tys, h => by
      rw [denoteAll, Option.bind_eq_bind, Option.bind_eq_some_iff] at h
      obtain ⟨ty, -, h⟩ := h
      rw [Option.bind_eq_bind, Option.bind_eq_some_iff] at h
      obtain ⟨tys', htys, h⟩ := h
      cases h
      exact congrArg (· + 1) (denoteAll_length htys)

theorem flattenAll_length : ∀ nodes, (flattenAll nodes).length = nodes.length
  | [] => rfl
  | _ :: nodes => congrArg (· + 1) (flattenAll_length nodes)

mutual

/-- What the parser sees of a type denotes one. -/
theorem denote_flatten : ∀ {node ty}, denote Γ node = some ty →
    ∃ ty', denote Γ (flatten node) = some ty'
  | .path path args, ty, h => by
      rw [denote, Option.bind_eq_bind, Option.bind_eq_some_iff] at h
      obtain ⟨tys, htys, h⟩ := h
      obtain ⟨tys', htys'⟩ := denoteAll_flatten htys
      have hlength : tys.length = tys'.length := by
        rw [denoteAll_length htys, denoteAll_length htys', flattenAll_length]
      obtain ⟨ty', hty'⟩ := Option.isSome_iff_exists.mp
        (denotePath_isSome hlength (Option.isSome_iff_exists.mpr ⟨ty, h⟩))
      refine ⟨ty', ?_⟩
      rw [flatten, denote, htys']
      exact hty'
  | .reference inner m lifetime, ty, h => by
      rw [denote, Option.bind_eq_bind, Option.bind_eq_some_iff] at h
      obtain ⟨_, hinner, -⟩ := h
      obtain ⟨ty', hty'⟩ := denote_flatten hinner
      refine ⟨.ref ty' m .dummy, ?_⟩
      rw [flatten, denote, hty']
      rfl
  | .tuple elems, ty, h => by
      rw [denote, Option.bind_eq_bind, Option.bind_eq_some_iff] at h
      obtain ⟨_, helems, -⟩ := h
      obtain ⟨tys', htys'⟩ := denoteAll_flatten helems
      refine ⟨.tuple tys', ?_⟩
      rw [flatten, denote, htys']
      rfl
  | .array element length, ty, h => by
      have helement : ∃ ty, denote Γ element = some ty := by
        cases length <;>
        · rw [denote, Option.bind_eq_bind, Option.bind_eq_some_iff] at h
          obtain ⟨ty, hty, -⟩ := h
          exact ⟨ty, hty⟩
      obtain ⟨_, helement⟩ := helement
      obtain ⟨ty', hty'⟩ := denote_flatten helement
      refine ⟨.array ty' (.literal 0), ?_⟩
      rw [flatten, denote, hty']
      rfl
  | .function modifiers params ret, ty, h => by
      rw [denote, Option.bind_eq_bind, Option.bind_eq_some_iff] at h
      obtain ⟨_, hparams, h⟩ := h
      rw [Option.bind_eq_bind, Option.bind_eq_some_iff] at h
      obtain ⟨_, hret, -⟩ := h
      obtain ⟨tys', htys'⟩ := denoteAll_flatten hparams
      obtain ⟨ty', hty'⟩ := denoteReturn_flatten hret
      refine ⟨.fnPtr tys' ty', ?_⟩
      rw [flatten, denote, htys', Option.bind_eq_bind, Option.bind_some, hty']
      rfl
  | .never, _, _ => ⟨.never, rfl⟩
  | .other, _, h => by
      cases h

theorem denoteAll_flatten : ∀ {nodes tys}, denoteAll Γ nodes = some tys →
    ∃ tys', denoteAll Γ (flattenAll nodes) = some tys'
  | [], _, _ => ⟨[], rfl⟩
  | node :: nodes, tys, h => by
      rw [denoteAll, Option.bind_eq_bind, Option.bind_eq_some_iff] at h
      obtain ⟨_, hnode, h⟩ := h
      rw [Option.bind_eq_bind, Option.bind_eq_some_iff] at h
      obtain ⟨_, hnodes, -⟩ := h
      obtain ⟨ty', hty'⟩ := denote_flatten hnode
      obtain ⟨tys', htys'⟩ := denoteAll_flatten hnodes
      refine ⟨ty' :: tys', ?_⟩
      rw [flattenAll, denoteAll, hty', Option.bind_eq_bind, Option.bind_some, htys']
      rfl

theorem denoteReturn_flatten : ∀ {ret ty}, denoteReturn Γ ret = some ty →
    ∃ ty', denoteReturn Γ (flattenReturn ret) = some ty'
  | none, _, _ => ⟨.tuple [], rfl⟩
  | some _, _, h => denote_flatten h

end

/-! ### When the lowerings are faithful -/

theorem localClauses_eq_nil {nodes : List TypeNode} : localClauses Γ nodes = [] ↔
    ∀ part ∈ nodes, ∀ environment ∈ localEnvironment Γ part, environment.whereClauses = [] := by
  rw [localClauses, List.flatMap_eq_nil_iff]
  exact forall₂_congr fun _ _ => List.flatMap_eq_nil_iff

theorem agree_iff (node : TypeNode) : Agree Γ node ↔ Uniform Γ node := by
  have h := compares (Γ := Γ) node
  constructor
  · intro hagree
    by_cases hrejected : ∃ part ∈ parts node, Rejected Γ part
    · exact .inl hrejected
    refine .inr ?_
    have hsig : (inSignature Γ node).diagnostics = [] :=
      h.signature_clean.mpr fun part hpart hpart' => hrejected ⟨part, hpart, hpart'⟩
    have hbody := hagree.diagnostics.mp hsig
    obtain ⟨-, hrequirements⟩ := hagree.same (.inl hsig)
    obtain ⟨hclauses, hsupported⟩ := Lowered.requirements_eq_iff.mp hrequirements
    refine ⟨fun part hpart => (h.body_clean.mp hbody part hpart).2, ?_, fun hexternal => ?_⟩
    · have hlength := h.length hbody
      rw [hclauses] at hlength
      exact localClauses_eq_nil.mp (List.eq_nil_of_length_eq_zero (by omega))
    · have hsupports := hsupported.mp ((h.supported hbody).mpr hexternal)
      exact ((h.local_supported hbody).mp hsupports).2
  · rintro (⟨part, hpart, hrejected⟩ | ⟨hloose, hclauses, hsupported⟩)
    · have hsig : (inSignature Γ node).diagnostics ≠ [] :=
        fun hnil => h.signature_clean.mp hnil part hpart hrejected
      have hbody : (inBody Γ node).diagnostics ≠ [] :=
        fun hnil => (h.body_clean.mp hnil part hpart).1 hrejected
      exact ⟨iff_of_false hsig hbody, fun hnil => absurd hnil (not_or.mpr ⟨hsig, hbody⟩)⟩
    · have hiff : (inSignature Γ node).diagnostics = [] ↔ (inBody Γ node).diagnostics = [] := by
        rw [h.signature_clean, h.body_clean]
        exact forall₂_congr fun part hpart => (and_iff_left (hloose part hpart)).symm
      refine ⟨hiff, fun hnil => ?_⟩
      have hbody : (inBody Γ node).diagnostics = [] := hnil.elim hiff.mp id
      refine ⟨h.value hbody, Lowered.requirements_eq_iff.mpr ⟨?_, ?_⟩⟩
      · refine (h.sublist hbody).eq_of_length ?_
        rw [h.length hbody, localClauses_eq_nil.mpr hclauses]
        rfl
      · rw [h.local_supported hbody]
        exact ⟨fun hsig => ⟨hsig, hsupported ((h.supported hbody).mp hsig)⟩, fun hboth => hboth.1⟩

theorem distinct_iff {R : Type} (read : Ty → List (List Nat × List Name) → R)
    (node node' : TypeNode) : Distinct Γ read node node' ↔ Separate Γ read node node' := by
  constructor
  · intro h ty ty' hty hty' hflat
    by_contra hne
    obtain ⟨flat, hflatten⟩ := denote_flatten hty
    refine (h ty ty' hty hty' hne).1 ?_
    rw [(lowered_eq node flat hflatten).1, (lowered_eq node' flat (hflat ▸ hflatten)).1]
  · intro h ty ty' hty hty' hne
    obtain ⟨flat, hflatten⟩ := denote_flatten hty
    obtain ⟨flat', hflatten'⟩ := denote_flatten hty'
    have hflat : flat ≠ flat' := by
      rintro rfl
      exact hne (h ty ty' hty hty' (hflatten.trans hflatten'.symm))
    obtain ⟨hsig, hbody⟩ := lowered_eq node flat hflatten
    obtain ⟨hsig', hbody'⟩ := lowered_eq node' flat' hflatten'
    rw [hsig, hbody, hsig', hbody']
    exact ⟨hflat, hflat⟩

end

/-- The lowerings of two written types agree, and tell the types apart, exactly if both types are
uniform and do not only differ where the parser does not look. -/
theorem faithful_iff {R : Type} (Γ : TypeScope) (read : Ty → List (List Nat × List Name) → R)
    (node node' : TypeNode) : Faithful Γ read node node' ↔
      Uniform Γ node ∧ Uniform Γ node' ∧ Separate Γ read node node' := by
  rw [← agree_iff, ← agree_iff, ← distinct_iff]
  exact ⟨fun h => ⟨h.left, h.right, h.distinct⟩, fun h => ⟨h.1, h.2.1, h.2.2⟩⟩

/-- A slice of units and an array of three are lowered to one type. -/
theorem slice_not_faithful : ¬∀ Γ : TypeScope,
    Faithful Γ Prod.mk (.array (.tuple []) none) (.array (.tuple []) (some (.literal 3))) := by
  intro h
  have hdistinct := (h ⟨fun _ => [], fun _ => .other⟩).distinct (.slice (.tuple []))
    (.array (.tuple []) (.literal 3)) rfl rfl
    (fun heq => by
      have hty := congrArg Prod.fst heq
      cases hty)
  exact hdistinct.1 rfl

end Sage.Check
