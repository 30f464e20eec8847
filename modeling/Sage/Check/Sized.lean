import Sage.Check.Instantiate
import Mathlib.Data.List.Perm.Subperm

/-!
# Check — the certainty of `Sized` and `MetaSized`

`sized_certainty` and `meta_sized_certainty` of `check/solve/clauses.rs`.  A struct is decided by
its last field, which is instantiated with the arguments; a set of the structs being visited cuts
recursive definitions.  The set is the same again after each call, so it is an argument here.

* `Definitions` — the symbols of types, of which finitely many are local structs.
* `sizedCertainty`, `metaSizedCertainty` — with fuel for the structs entered inside one another.
* `Reading`, `leastReading` — what the two traits mean, for any assumptions about opaque types.
* `certainty_sound` — both end, and what they answer holds in every reading.
-/

namespace Sage.Check

/-! ### Definitions -/

/-- A struct of the local crate, with the types of its fields; these have no inference variables. -/
structure LocalStruct where
  generics : List GenericParam
  fields : List Ty
  closed : ∀ ty ∈ fields, ty.vars = []

/-- What a symbol stands for in `Ty::Adt`. -/
inductive AdtData where
  | enum
  | externalStruct (alwaysSized : Option Bool)
  | localStruct (definition : LocalStruct)
  | other

structure Definitions where
  data : Symbol → AdtData
  structs : List Symbol
  finite : ∀ sym definition, data sym = .localStruct definition → sym ∈ structs

inductive SizedCertainty where
  | yes
  | no
  | maybe
deriving DecidableEq

@[grind =] def combineSized : SizedCertainty → SizedCertainty → SizedCertainty
  | .no, _ | _, .no => .no
  | .maybe, _ | _, .maybe => .maybe
  | .yes, .yes => .yes

/-! ### Certainty -/

/-- The last field with the arguments for the type parameters.  A struct without fields has the
property in any case; the wrong number of arguments decides nothing. -/
@[grind =] def localStructTail (definition : LocalStruct) (arguments : List Ty) :
    SizedCertainty ⊕ Ty :=
  match definition.fields.getLast? with
  | none => .inl .yes
  | some lastField =>
      let typeParameters := definition.generics.filter fun parameter => parameter.kind = .type
      if typeParameters.length ≠ arguments.length then .inl .maybe
      else .inr (substitute (buildTypeSubstMap definition.generics arguments) lastField)

section

variable (definitions : Definitions)
  (onStruct : LocalStruct → List Ty → List Symbol → Option SizedCertainty)

/-- The arm for `Ty::Adt`, which both functions share. -/
def adtCertainty (sym : Symbol) (arguments : List Ty) (visiting : List Symbol) :
    Option SizedCertainty :=
  match definitions.data sym with
  | .enum => some .yes
  | .externalStruct alwaysSized => some (if alwaysSized = some true then .yes else .maybe)
  | .localStruct definition =>
      if sym ∈ visiting then some .maybe else onStruct definition arguments (sym :: visiting)
  | .other => some .maybe

mutual

def sizedIn (visiting : List Symbol) : Ty → Option SizedCertainty
  | .bool | .char | .int _ | .uint _ | .float _ | .ref _ _ _ | .fnPtr _ _ | .never => some .yes
  | .str | .slice _ => some .no
  | .array element _ => sizedIn visiting element
  | .tuple elements => sizedFold visiting elements .yes
  | .adt sym arguments => adtCertainty definitions onStruct sym arguments visiting
  | .alias _ | .param _ | .inferVar _ | .error _ => some .maybe

def sizedFold (visiting : List Symbol) : List Ty → SizedCertainty → Option SizedCertainty
  | [], certainty => some certainty
  | element :: elements, certainty => do
      let next ← sizedIn visiting element
      sizedFold visiting elements (combineSized certainty next)

end

end

/-- `local_struct_sized`. -/
def localStructSized (definitions : Definitions) :
    Nat → LocalStruct → List Ty → List Symbol → Option SizedCertainty
  | 0, _, _, _ => none
  | depth + 1, definition, arguments, visiting =>
      match localStructTail definition arguments with
      | .inl certainty => some certainty
      | .inr tail => sizedIn definitions (localStructSized definitions depth) visiting tail

def sizedCertainty (definitions : Definitions) (ty : Ty) : Option SizedCertainty :=
  sizedIn definitions (localStructSized definitions (definitions.structs.length + 1)) [] ty

section

variable (definitions : Definitions)
  (onStruct onMeta : LocalStruct → List Ty → List Symbol → Option SizedCertainty)

mutual

/-- Only the last element of a tuple may be unsized. -/
def metaSizedIn (visiting : List Symbol) : Ty → Option SizedCertainty
  | .bool | .char | .int _ | .uint _ | .float _ | .ref _ _ _ | .fnPtr _ _ | .never | .str
  | .slice _ => some .yes
  | .array element _ => sizedIn definitions onStruct visiting element
  | .tuple elements => metaSizedFold visiting elements .yes
  | .adt sym arguments => adtCertainty definitions onMeta sym arguments visiting
  | .alias _ | .param _ | .inferVar _ | .error _ => some .maybe

def metaSizedFold (visiting : List Symbol) : List Ty → SizedCertainty → Option SizedCertainty
  | [], certainty => some certainty
  | [tail], certainty => do
      let last ← metaSizedIn visiting tail
      return combineSized certainty last
  | element :: elements, certainty => do
      let next ← sizedIn definitions onStruct visiting element
      metaSizedFold visiting elements (combineSized certainty next)

end

end

/-- `local_struct_meta_sized`. -/
def localStructMetaSized (definitions : Definitions) :
    Nat → LocalStruct → List Ty → List Symbol → Option SizedCertainty
  | 0, _, _, _ => none
  | depth + 1, definition, arguments, visiting =>
      match localStructTail definition arguments with
      | .inl certainty => some certainty
      | .inr tail => metaSizedIn definitions (localStructSized definitions depth)
          (localStructMetaSized definitions depth) visiting tail

def metaSizedCertainty (definitions : Definitions) (ty : Ty) : Option SizedCertainty :=
  metaSizedIn definitions (localStructSized definitions (definitions.structs.length + 1))
    (localStructMetaSized definitions (definitions.structs.length + 1)) [] ty

/-! ### Readings -/

/-- The types that have both properties whatever their definitions are. -/
def Ty.Scalar : Ty → Prop
  | .bool | .char | .int _ | .uint _ | .float _ | .ref _ _ _ | .fnPtr _ _ | .never => True
  | _ => False

/-- The number of type parameters of a struct. -/
def LocalStruct.arity (definition : LocalStruct) : Nat :=
  (definition.generics.filter fun parameter => parameter.kind = .type).length

/-- The last field of an instance. -/
def LocalStruct.tail (definition : LocalStruct) (arguments : List Ty) (lastField : Ty) : Ty :=
  substitute (buildTypeSubstMap definition.generics arguments) lastField

/-- What the two traits may mean: they hold of a type as its form says, and of an opaque type
(an alias, a parameter, an inference variable) as is assumed. -/
structure Reading (definitions : Definitions) where
  sized : Ty → Prop
  metaSized : Ty → Prop
  sized_scalar : ∀ ty, Ty.Scalar ty → sized ty
  not_sized_str : ¬sized .str
  not_sized_slice : ∀ element, ¬sized (.slice element)
  sized_array : ∀ element length, sized (.array element length) ↔ sized element
  sized_tuple : ∀ elements, sized (.tuple elements) ↔ ∀ element ∈ elements, sized element
  sized_enum : ∀ sym arguments, definitions.data sym = .enum → sized (.adt sym arguments)
  sized_external : ∀ sym arguments, definitions.data sym = .externalStruct (some true) →
    sized (.adt sym arguments)
  sized_empty : ∀ sym definition arguments, definitions.data sym = .localStruct definition →
    definition.fields = [] → sized (.adt sym arguments)
  sized_struct : ∀ sym definition arguments lastField,
    definitions.data sym = .localStruct definition →
    definition.fields.getLast? = some lastField → definition.arity = arguments.length →
    (sized (.adt sym arguments) ↔ sized (definition.tail arguments lastField))
  metaSized_of_sized : ∀ ty, sized ty → metaSized ty
  metaSized_str : metaSized .str
  metaSized_slice : ∀ element, metaSized (.slice element)
  metaSized_array : ∀ element length, metaSized (.array element length) ↔ sized element
  metaSized_tuple : ∀ elements tail, metaSized (.tuple (elements ++ [tail])) ↔
    (∀ element ∈ elements, sized element) ∧ metaSized tail
  metaSized_struct : ∀ sym definition arguments lastField,
    definitions.data sym = .localStruct definition →
    definition.fields.getLast? = some lastField → definition.arity = arguments.length →
    (metaSized (.adt sym arguments) ↔ metaSized (definition.tail arguments lastField))

/-! ### Instances -/

section

variable {definitions : Definitions} {θ : InferVarIndex → Ty}

theorem buildTypeSubstMap_map (generics : List GenericParam) (arguments : List Ty)
    (f : Ty → Ty) (p : GenericParam) :
    buildTypeSubstMap generics (arguments.map f) p =
      match buildTypeSubstMap generics arguments p with
      | some (.ty ty) => some (.ty (f ty))
      | some (.const c) => some (.const c)
      | none => none := by
  rw [buildTypeSubstMap, buildTypeSubstMap, List.zip_map_right]
  suffices h : ∀ (rows : List (GenericParam × Ty)) (start start' : ParamSubst),
      (∀ p, start' p = match start p with
        | some (.ty ty) => some (.ty (f ty))
        | some (.const c) => some (.const c)
        | none => none) →
      (rows.map (Prod.map id f)).foldl ParamSubst.insert start' p =
        match rows.foldl ParamSubst.insert start p with
        | some (.ty ty) => some (.ty (f ty))
        | some (.const c) => some (.const c)
        | none => none from
    h _ _ _ fun _ => rfl
  intro rows
  induction rows with
  | nil => intro start start' h; exact h p
  | cons row rows ih =>
      intro start start' h
      refine ih _ _ fun q => ?_
      by_cases hq : q = row.1
      · subst hq
        simp [ParamSubst.insert]
      · simp only [ParamSubst.insert, Prod.map_fst, id, Function.update_of_ne hq]
        exact h q

/-- An instance of a type without inference variables is an instance with instances. -/
theorem substitute_subst {ty : Ty} (hclosed : ty.vars = []) (generics : List GenericParam)
    (arguments : List Ty) : (substitute (buildTypeSubstMap generics arguments) ty).subst θ =
      substitute (buildTypeSubstMap generics (arguments.map (Ty.subst θ))) ty := by
  induction ty using Ty.induction with
  | step ty ih =>
      rcases ty.cases_leaf with h | ⟨x, rfl⟩ | ⟨p, rfl⟩
      · have hrigid : (substitute (buildTypeSubstMap generics arguments) ty).Rigid :=
          (inner_substitute h).rigid
        refine decompose_injective ?_ ?_
        · rw [Ty.decompose_subst hrigid, decompose_substitute h, decompose_substitute h]
        · rw [Ty.decompose_subst hrigid, decompose_substitute h, decompose_substitute h,
            List.map_map]
          refine List.map_congr_left fun child hchild => ih child hchild ?_
          refine List.eq_nil_iff_forall_not_mem.mpr fun x hx => ?_
          have hmem := (Ty.mem_vars_iff h.rigid).mpr ⟨child, hchild, hx⟩
          rw [hclosed] at hmem
          exact List.not_mem_nil hmem
      · have hmem : x ∈ (Ty.inferVar x).vars := Ty.mem_vars_inferVar.mpr rfl
        rw [hclosed] at hmem
        exact absurd hmem List.not_mem_nil
      · rw [substitute_param, substitute_param, buildTypeSubstMap_map]
        cases buildTypeSubstMap generics arguments p with
        | none => exact Ty.subst_param ..
        | some target =>
          cases target with
          | ty ty => rfl
          | const c => exact Ty.subst_param ..

theorem LocalStruct.tail_subst (definition : LocalStruct) {lastField : Ty}
    (hlast : definition.fields.getLast? = some lastField) (arguments : List Ty) :
    (definition.tail arguments lastField).subst θ =
      definition.tail (arguments.map (Ty.subst θ)) lastField :=
  substitute_subst (definition.closed _ (List.mem_of_getLast? hlast)) definition.generics arguments

theorem subst_adt (sym : Symbol) (arguments : List Ty) :
    (Ty.adt sym arguments).subst θ = .adt sym (arguments.map (Ty.subst θ)) := by
  simp [Ty.subst, Ty.foldLeaves]

theorem subst_tuple (elements : List Ty) :
    (Ty.tuple elements).subst θ = .tuple (elements.map (Ty.subst θ)) := by
  simp [Ty.subst, Ty.foldLeaves]

/-! ### Answers -/

/-- An answer holds under every instantiation of the inference variables. -/
structure Answers (holds : Ty → Prop) (ty : Ty) (certainty : SizedCertainty) : Prop where
  yes : certainty = .yes → ∀ θ, holds (ty.subst θ)
  no : certainty = .no → ∀ θ, ¬holds (ty.subst θ)

/-- A call ends, with an answer that holds. -/
def Decides (holds : Ty → Prop) (ty : Ty) (result : Option SizedCertainty) : Prop :=
  ∃ certainty, result = some certainty ∧ Answers holds ty certainty

variable {holds : Ty → Prop} {ty : Ty}

theorem Answers.of_yes (h : ∀ θ, holds (ty.subst θ)) : Answers holds ty .yes :=
  ⟨fun _ => h, nofun⟩

theorem Answers.of_no (h : ∀ θ, ¬holds (ty.subst θ)) : Answers holds ty .no :=
  ⟨nofun, fun _ => h⟩

theorem Answers.of_maybe : Answers holds ty .maybe := ⟨nofun, nofun⟩

theorem combineSized_eq_yes {left right : SizedCertainty} :
    combineSized left right = .yes ↔ left = .yes ∧ right = .yes := by
  cases left <;> cases right <;> simp [combineSized]

theorem combineSized_eq_no {left right : SizedCertainty} :
    combineSized left right = .no ↔ left = .no ∨ right = .no := by
  cases left <;> cases right <;> simp [combineSized]

variable (R : Reading definitions) {visiting : List Symbol}
  {onStruct onMeta : LocalStruct → List Ty → List Symbol → Option SizedCertainty}

/-- What the structs of a type are answered with. -/
def DecidesStructs (holds : Ty → Prop) (definitions : Definitions) (visiting : List Symbol)
    (onStruct : LocalStruct → List Ty → List Symbol → Option SizedCertainty) : Prop :=
  ∀ sym definition arguments, definitions.data sym = .localStruct definition → sym ∉ visiting →
    Decides holds (.adt sym arguments) (onStruct definition arguments (sym :: visiting))

theorem adtCertainty_decides (hall : ∀ sym arguments, definitions.data sym = .enum ∨
      definitions.data sym = .externalStruct (some true) → holds (.adt sym arguments))
    (hstruct : DecidesStructs holds definitions visiting onStruct) (sym : Symbol)
    (arguments : List Ty) :
    Decides holds (.adt sym arguments)
      (adtCertainty definitions onStruct sym arguments visiting) := by
  rw [adtCertainty]
  cases hdata : definitions.data sym with
  | enum =>
    refine ⟨.yes, rfl, .of_yes fun θ => ?_⟩
    rw [subst_adt]
    exact hall sym _ (.inl hdata)
  | externalStruct alwaysSized =>
    by_cases hsized : alwaysSized = some true
    · subst hsized
      refine ⟨.yes, rfl, .of_yes fun θ => ?_⟩
      rw [subst_adt]
      exact hall sym _ (.inr hdata)
    · exact ⟨.maybe, congrArg some (if_neg hsized), .of_maybe⟩
  | localStruct definition =>
    by_cases hvisiting : sym ∈ visiting
    · exact ⟨.maybe, if_pos hvisiting, .of_maybe⟩
    · dsimp only
      rw [if_neg hvisiting]
      exact hstruct sym definition arguments hdata hvisiting
  | other => exact ⟨.maybe, rfl, .of_maybe⟩

mutual

theorem sizedIn_decides (hstruct : DecidesStructs R.sized definitions visiting onStruct) :
    ∀ ty, Decides R.sized ty (sizedIn definitions onStruct visiting ty)
  | .bool | .char | .int _ | .uint _ | .float _ | .never =>
      ⟨.yes, rfl, .of_yes fun _ => R.sized_scalar _ trivial⟩
  | .ref _ _ _ | .fnPtr _ _ => ⟨.yes, rfl, .of_yes fun _ => R.sized_scalar _ trivial⟩
  | .str => ⟨.no, rfl, .of_no fun _ => R.not_sized_str⟩
  | .slice _ => ⟨.no, rfl, .of_no fun _ => R.not_sized_slice _⟩
  | .array element length => by
      obtain ⟨certainty, heq, hanswers⟩ := sizedIn_decides hstruct element
      refine ⟨certainty, heq, fun hyes θ => ?_, fun hno θ => ?_⟩
      · exact (R.sized_array _ _).mpr (hanswers.yes hyes θ)
      · exact fun hsized => hanswers.no hno θ ((R.sized_array _ _).mp hsized)
  | .tuple elements => by
      obtain ⟨certainty, heq, hyes, hno⟩ := sizedFold_decides hstruct elements .yes
      refine ⟨certainty, heq, fun h θ => ?_, fun h θ => ?_⟩
      · rw [subst_tuple, R.sized_tuple]
        intro instance' hinstance
        obtain ⟨element, helement, rfl⟩ := List.mem_map.mp hinstance
        exact (hyes h).2 element helement θ
      · rw [subst_tuple, R.sized_tuple]
        obtain h | ⟨element, helement, hunsized⟩ := hno h
        · cases h
        · exact fun hall => hunsized θ (hall _ (List.mem_map_of_mem helement))
  | .adt sym arguments => adtCertainty_decides
      (fun sym arguments h => h.elim (R.sized_enum sym arguments) (R.sized_external sym arguments))
      hstruct sym arguments
  | .alias _ | .param _ | .inferVar _ | .error _ => ⟨.maybe, rfl, .of_maybe⟩

theorem sizedFold_decides (hstruct : DecidesStructs R.sized definitions visiting onStruct) :
    ∀ elements certainty, ∃ result,
      sizedFold definitions onStruct visiting elements certainty = some result ∧
      (result = .yes → certainty = .yes ∧ ∀ element ∈ elements, ∀ θ, R.sized (element.subst θ)) ∧
      (result = .no → certainty = .no ∨ ∃ element ∈ elements, ∀ θ, ¬R.sized (element.subst θ))
  | [], certainty => ⟨certainty, rfl, fun h => ⟨h, nofun⟩, .inl⟩
  | element :: elements, certainty => by
      obtain ⟨next, heq, hanswers⟩ := sizedIn_decides hstruct element
      obtain ⟨result, hrest, hyes, hno⟩ :=
        sizedFold_decides hstruct elements (combineSized certainty next)
      refine ⟨result, ?_, fun h => ?_, fun h => ?_⟩
      · rw [sizedFold, heq]
        exact hrest
      · obtain ⟨hcombine, hall⟩ := hyes h
        obtain ⟨hcertainty, hnext⟩ := combineSized_eq_yes.mp hcombine
        exact ⟨hcertainty, List.forall_mem_cons.mpr ⟨hanswers.yes hnext, hall⟩⟩
      · obtain hcombine | ⟨element', hmem, hunsized⟩ := hno h
        · obtain hcertainty | hnext := combineSized_eq_no.mp hcombine
          · exact .inl hcertainty
          · exact .inr ⟨element, List.mem_cons_self, hanswers.no hnext⟩
        · exact .inr ⟨element', List.mem_cons_of_mem _ hmem, hunsized⟩

end

theorem metaSized_adt (R : Reading definitions) (sym : Symbol) (arguments : List Ty)
    (h : definitions.data sym = .enum ∨ definitions.data sym = .externalStruct (some true)) :
    R.metaSized (.adt sym arguments) :=
  R.metaSized_of_sized _ (h.elim (R.sized_enum sym arguments) (R.sized_external sym arguments))

mutual

theorem metaSizedIn_decides (hstruct : DecidesStructs R.sized definitions visiting onStruct)
    (hmeta : DecidesStructs R.metaSized definitions visiting onMeta) :
    ∀ ty, Decides R.metaSized ty (metaSizedIn definitions onStruct onMeta visiting ty)
  | .bool | .char | .int _ | .uint _ | .float _ | .never =>
      ⟨.yes, rfl, .of_yes fun _ => R.metaSized_of_sized _ (R.sized_scalar _ trivial)⟩
  | .ref _ _ _ | .fnPtr _ _ =>
      ⟨.yes, rfl, .of_yes fun _ => R.metaSized_of_sized _ (R.sized_scalar _ trivial)⟩
  | .str => ⟨.yes, rfl, .of_yes fun _ => R.metaSized_str⟩
  | .slice _ => ⟨.yes, rfl, .of_yes fun _ => R.metaSized_slice _⟩
  | .array element length => by
      obtain ⟨certainty, heq, hanswers⟩ := sizedIn_decides R hstruct element
      refine ⟨certainty, heq, fun hyes θ => ?_, fun hno θ => ?_⟩
      · exact (R.metaSized_array _ _).mpr (hanswers.yes hyes θ)
      · exact fun hsized => hanswers.no hno θ ((R.metaSized_array _ _).mp hsized)
  | .tuple [] => ⟨.yes, rfl, .of_yes fun θ => by
      rw [subst_tuple]
      exact R.metaSized_of_sized _ ((R.sized_tuple _).mpr fun _ h => absurd h List.not_mem_nil)⟩
  | .tuple (element :: elements) => by
      obtain ⟨certainty, heq, hyes, hno⟩ :=
        metaSizedFold_decides hstruct hmeta (element :: elements) .yes
      -- the last element, and what stands before it
      obtain ⟨front, tail, hsplit⟩ :=
        (List.eq_nil_or_concat' (element :: elements)).resolve_left (List.cons_ne_nil _ _)
      refine ⟨certainty, heq, fun h θ => ?_, fun h θ => ?_⟩
      · obtain ⟨-, hfront, htail⟩ := hyes front tail hsplit h
        rw [subst_tuple, hsplit, List.map_append]
        refine (R.metaSized_tuple _ _).mpr ⟨fun ty hty => ?_, htail θ⟩
        obtain ⟨child, hchild, rfl⟩ := List.mem_map.mp hty
        exact hfront child hchild θ
      · rw [subst_tuple, hsplit, List.map_append]
        intro hsized
        obtain ⟨hfront, htail⟩ := (R.metaSized_tuple _ _).mp hsized
        obtain h | ⟨child, hchild, hunsized⟩ | hunsized := hno front tail hsplit h
        · cases h
        · exact hunsized θ (hfront _ (List.mem_map_of_mem hchild))
        · exact hunsized θ htail
  | .adt sym arguments => adtCertainty_decides (metaSized_adt R) hmeta sym arguments
  | .alias _ | .param _ | .inferVar _ | .error _ => ⟨.maybe, rfl, .of_maybe⟩

theorem metaSizedFold_decides (hstruct : DecidesStructs R.sized definitions visiting onStruct)
    (hmeta : DecidesStructs R.metaSized definitions visiting onMeta) :
    ∀ elements certainty, ∃ result,
      metaSizedFold definitions onStruct onMeta visiting elements certainty = some result ∧
      (∀ (front : List Ty) (tail : Ty), elements = front ++ [tail] → result = .yes →
        certainty = .yes ∧ (∀ element ∈ front, ∀ θ, R.sized (element.subst θ)) ∧
          ∀ θ, R.metaSized (tail.subst θ)) ∧
      (∀ (front : List Ty) (tail : Ty), elements = front ++ [tail] → result = .no →
        certainty = .no ∨ (∃ element ∈ front, ∀ θ, ¬R.sized (element.subst θ)) ∨
        ∀ θ, ¬R.metaSized (tail.subst θ))
  | [], certainty => ⟨certainty, rfl,
      fun front tail h => absurd h.symm (List.concat_ne_nil tail front),
      fun front tail h => absurd h.symm (List.concat_ne_nil tail front)⟩
  | [last], certainty => by
      obtain ⟨next, heq, hanswers⟩ := metaSizedIn_decides hstruct hmeta last
      have hsingle : ∀ {front : List Ty} {tail : Ty}, [last] = front ++ [tail] →
          front = [] ∧ tail = last := by
        intro front tail h
        cases front with
        | nil => exact ⟨rfl, (List.cons.inj h).1.symm⟩
        | cons _ front => exact absurd (List.cons.inj h).2.symm (List.concat_ne_nil tail front)
      refine ⟨combineSized certainty next, ?_, fun front tail h hyes => ?_,
        fun front tail h hno => ?_⟩
      · rw [metaSizedFold, heq]
        rfl
      · obtain ⟨rfl, rfl⟩ := hsingle h
        obtain ⟨hcertainty, hnext⟩ := combineSized_eq_yes.mp hyes
        exact ⟨hcertainty, fun _ h => absurd h List.not_mem_nil, hanswers.yes hnext⟩
      · obtain ⟨rfl, rfl⟩ := hsingle h
        obtain hcertainty | hnext := combineSized_eq_no.mp hno
        · exact .inl hcertainty
        · exact .inr (.inr (hanswers.no hnext))
  | element :: second :: elements, certainty => by
      obtain ⟨next, heq, hanswers⟩ := sizedIn_decides R hstruct element
      obtain ⟨result, hrest, hyes, hno⟩ :=
        metaSizedFold_decides hstruct hmeta (second :: elements) (combineSized certainty next)
      have hcons : ∀ {front : List Ty} {tail : Ty},
          element :: second :: elements = front ++ [tail] →
          ∃ front', front = element :: front' ∧ second :: elements = front' ++ [tail] := by
        intro front tail h
        cases front with
        | nil => exact absurd (List.cons.inj h).2 (List.cons_ne_nil _ _)
        | cons _ front =>
          obtain ⟨rfl, hrest⟩ := List.cons.inj h
          exact ⟨front, rfl, hrest⟩
      refine ⟨result, ?_, fun front tail h hresult => ?_, fun front tail h hresult => ?_⟩
      · rw [metaSizedFold, heq]
        · exact hrest
        · exact List.cons_ne_nil _ _
      · obtain ⟨front', rfl, hsplit⟩ := hcons h
        obtain ⟨hcombine, hfront, htail⟩ := hyes front' tail hsplit hresult
        obtain ⟨hcertainty, hnext⟩ := combineSized_eq_yes.mp hcombine
        exact ⟨hcertainty, List.forall_mem_cons.mpr ⟨hanswers.yes hnext, hfront⟩, htail⟩
      · obtain ⟨front', rfl, hsplit⟩ := hcons h
        obtain hcombine | ⟨child, hchild, hunsized⟩ | hunsized := hno front' tail hsplit hresult
        · obtain hcertainty | hnext := combineSized_eq_no.mp hcombine
          · exact .inl hcertainty
          · exact .inr (.inl ⟨element, List.mem_cons_self, hanswers.no hnext⟩)
        · exact .inr (.inl ⟨child, List.mem_cons_of_mem _ hchild, hunsized⟩)
        · exact .inr (.inr hunsized)

end

/-! ### Structs -/

/-- The structs being visited, each once, with fuel for those that are not. -/
structure Visits (definitions : Definitions) (visiting : List Symbol) (depth : Nat) : Prop where
  nodup : visiting.Nodup
  structs : ∀ sym ∈ visiting, sym ∈ definitions.structs
  enough : definitions.structs.length + 1 ≤ depth + visiting.length

theorem Visits.start : Visits definitions [] (definitions.structs.length + 1) :=
  ⟨List.nodup_nil, fun _ h => absurd h List.not_mem_nil, Nat.le_refl _⟩

/-- Entering a struct takes fuel, which is there. -/
theorem Visits.enter {depth : Nat} (h : Visits definitions visiting depth) {sym : Symbol}
    {definition : LocalStruct} (hdata : definitions.data sym = .localStruct definition)
    (hnew : sym ∉ visiting) :
    ∃ rest, depth = rest + 1 ∧ Visits definitions (sym :: visiting) rest := by
  have hnodup : (sym :: visiting).Nodup := List.nodup_cons.mpr ⟨hnew, h.nodup⟩
  have hstructs : ∀ sym' ∈ sym :: visiting, sym' ∈ definitions.structs :=
    List.forall_mem_cons.mpr ⟨definitions.finite sym definition hdata, h.structs⟩
  have hlength := (List.Nodup.subperm hnodup hstructs).length_le
  have henough := h.enough
  rw [List.length_cons] at hlength
  cases depth with
  | zero => omega
  | succ depth =>
    refine ⟨depth, rfl, hnodup, hstructs, ?_⟩
    rw [List.length_cons]
    omega

/-- A struct is answered as its last field is. -/
theorem Answers.of_tail {sym : Symbol} {definition : LocalStruct} {arguments : List Ty}
    {lastField : Ty} {certainty : SizedCertainty}
    (hlast : definition.fields.getLast? = some lastField)
    (hiff : ∀ arguments' : List Ty, definition.arity = arguments'.length →
      (holds (.adt sym arguments') ↔ holds (definition.tail arguments' lastField)))
    (harity : definition.arity = arguments.length)
    (h : Answers holds (definition.tail arguments lastField) certainty) :
    Answers holds (.adt sym arguments) certainty := by
  have hstep : ∀ θ, holds ((Ty.adt sym arguments).subst θ) ↔
      holds ((definition.tail arguments lastField).subst θ) := by
    intro θ
    rw [subst_adt, definition.tail_subst hlast]
    exact hiff _ (by rw [List.length_map, harity])
  exact ⟨fun hyes θ => (hstep θ).mpr (h.yes hyes θ),
    fun hno θ hholds => h.no hno θ ((hstep θ).mp hholds)⟩

theorem localStructTail_some {definition : LocalStruct} {lastField : Ty}
    (hlast : definition.fields.getLast? = some lastField) (arguments : List Ty) :
    localStructTail definition arguments =
      if definition.arity ≠ arguments.length then .inl .maybe
      else .inr (definition.tail arguments lastField) := by
  rw [localStructTail, hlast]
  rfl

theorem localStructTail_none {definition : LocalStruct}
    (hlast : definition.fields.getLast? = none) (arguments : List Ty) :
    localStructTail definition arguments = .inl .yes := by
  rw [localStructTail, hlast]

theorem localStructSized_decides : ∀ depth visiting, Visits definitions visiting depth →
    DecidesStructs R.sized definitions visiting (localStructSized definitions depth) := by
  intro depth
  induction depth with
  | zero =>
    intro visiting hvisits sym definition arguments hdata hnew
    obtain ⟨rest, hdepth, -⟩ := hvisits.enter hdata hnew
    cases hdepth
  | succ depth ih =>
    intro visiting hvisits sym definition arguments hdata hnew
    obtain ⟨rest, hdepth, hinner⟩ := hvisits.enter hdata hnew
    obtain rfl := Nat.succ.inj hdepth
    rw [localStructSized]
    cases hlast : definition.fields.getLast? with
    | none =>
      rw [localStructTail_none hlast]
      refine ⟨.yes, rfl, .of_yes fun θ => ?_⟩
      rw [subst_adt]
      exact R.sized_empty sym definition _ hdata (List.getLast?_eq_none_iff.mp hlast)
    | some lastField =>
      rw [localStructTail_some hlast]
      by_cases harity : definition.arity = arguments.length
      · rw [if_neg (not_not_intro harity)]
        obtain ⟨certainty, heq, hanswers⟩ := sizedIn_decides R (ih _ hinner)
          (definition.tail arguments lastField)
        exact ⟨certainty, heq, hanswers.of_tail hlast
          (fun arguments' => R.sized_struct sym definition arguments' lastField hdata hlast) harity⟩
      · rw [if_pos harity]
        exact ⟨.maybe, rfl, .of_maybe⟩

theorem localStructMetaSized_decides : ∀ depth visiting, Visits definitions visiting depth →
    DecidesStructs R.metaSized definitions visiting (localStructMetaSized definitions depth) := by
  intro depth
  induction depth with
  | zero =>
    intro visiting hvisits sym definition arguments hdata hnew
    obtain ⟨rest, hdepth, -⟩ := hvisits.enter hdata hnew
    cases hdepth
  | succ depth ih =>
    intro visiting hvisits sym definition arguments hdata hnew
    obtain ⟨rest, hdepth, hinner⟩ := hvisits.enter hdata hnew
    obtain rfl := Nat.succ.inj hdepth
    rw [localStructMetaSized]
    cases hlast : definition.fields.getLast? with
    | none =>
      rw [localStructTail_none hlast]
      refine ⟨.yes, rfl, .of_yes fun θ => ?_⟩
      rw [subst_adt]
      exact R.metaSized_of_sized _
        (R.sized_empty sym definition _ hdata (List.getLast?_eq_none_iff.mp hlast))
    | some lastField =>
      rw [localStructTail_some hlast]
      by_cases harity : definition.arity = arguments.length
      · rw [if_neg (not_not_intro harity)]
        obtain ⟨certainty, heq, hanswers⟩ := metaSizedIn_decides R
          (localStructSized_decides R depth _ hinner) (ih _ hinner)
          (definition.tail arguments lastField)
        exact ⟨certainty, heq, hanswers.of_tail hlast
          (fun arguments' => R.metaSized_struct sym definition arguments' lastField hdata hlast)
          harity⟩
      · rw [if_pos harity]
        exact ⟨.maybe, rfl, .of_maybe⟩

end

theorem sizedCertainty_decides {definitions : Definitions} (R : Reading definitions) (ty : Ty) :
    Decides R.sized ty (sizedCertainty definitions ty) :=
  sizedIn_decides R (localStructSized_decides R _ [] Visits.start) ty

theorem metaSizedCertainty_decides {definitions : Definitions} (R : Reading definitions)
    (ty : Ty) : Decides R.metaSized ty (metaSizedCertainty definitions ty) :=
  metaSizedIn_decides R (localStructSized_decides R _ [] Visits.start)
    (localStructMetaSized_decides R _ [] Visits.start) ty

/-! ### The least reading -/

/-- The types about which only assumptions say something. -/
def Undetermined (definitions : Definitions) : Ty → Prop
  | .alias _ | .param _ | .inferVar _ | .error _ => True
  | .adt sym _ =>
      match definitions.data sym with
      | .externalStruct alwaysSized => alwaysSized ≠ some true
      | .other => True
      | .enum | .localStruct _ => False
  | _ => False

/-- `Sized` in the least reading. -/
inductive LeastSized (definitions : Definitions) (assumed : Ty → Prop) : Ty → Prop
  | scalar {ty : Ty} (h : Ty.Scalar ty) : LeastSized definitions assumed ty
  | array {element : Ty} (length : Const) (h : LeastSized definitions assumed element) :
      LeastSized definitions assumed (.array element length)
  | tuple {elements : List Ty} (h : ∀ element ∈ elements, LeastSized definitions assumed element) :
      LeastSized definitions assumed (.tuple elements)
  | enum {sym : Symbol} (arguments : List Ty) (h : definitions.data sym = .enum) :
      LeastSized definitions assumed (.adt sym arguments)
  | external {sym : Symbol} (arguments : List Ty)
      (h : definitions.data sym = .externalStruct (some true)) :
      LeastSized definitions assumed (.adt sym arguments)
  | empty {sym : Symbol} {definition : LocalStruct} (arguments : List Ty)
      (hdata : definitions.data sym = .localStruct definition) (h : definition.fields = []) :
      LeastSized definitions assumed (.adt sym arguments)
  | struct {sym : Symbol} {definition : LocalStruct} {arguments : List Ty} {lastField : Ty}
      (hdata : definitions.data sym = .localStruct definition)
      (hlast : definition.fields.getLast? = some lastField)
      (harity : definition.arity = arguments.length)
      (h : LeastSized definitions assumed (definition.tail arguments lastField)) :
      LeastSized definitions assumed (.adt sym arguments)
  | assumed {ty : Ty} (hleft : Undetermined definitions ty) (h : assumed ty) :
      LeastSized definitions assumed ty

/-- `MetaSized` in the least reading. -/
inductive LeastMetaSized (definitions : Definitions) (assumed assumedMeta : Ty → Prop) : Ty → Prop
  | sized {ty : Ty} (h : LeastSized definitions assumed ty) :
      LeastMetaSized definitions assumed assumedMeta ty
  | str : LeastMetaSized definitions assumed assumedMeta .str
  | slice (element : Ty) : LeastMetaSized definitions assumed assumedMeta (.slice element)
  | tuple {elements front : List Ty} {tail : Ty} (hsplit : elements = front ++ [tail])
      (hfront : ∀ element ∈ front, LeastSized definitions assumed element)
      (h : LeastMetaSized definitions assumed assumedMeta tail) :
      LeastMetaSized definitions assumed assumedMeta (.tuple elements)
  | struct {sym : Symbol} {definition : LocalStruct} {arguments : List Ty} {lastField : Ty}
      (hdata : definitions.data sym = .localStruct definition)
      (hlast : definition.fields.getLast? = some lastField)
      (harity : definition.arity = arguments.length)
      (h : LeastMetaSized definitions assumed assumedMeta (definition.tail arguments lastField)) :
      LeastMetaSized definitions assumed assumedMeta (.adt sym arguments)
  | assumed {ty : Ty} (hleft : Undetermined definitions ty) (h : assumedMeta ty) :
      LeastMetaSized definitions assumed assumedMeta ty

section

variable {definitions : Definitions} {assumed assumedMeta : Ty → Prop}

theorem leastSized_array {element : Ty} {length : Const} :
    LeastSized definitions assumed (.array element length) ↔
      LeastSized definitions assumed element := by
  constructor
  · intro h
    cases h with
    | scalar h => exact h.elim
    | array _ h => exact h
    | assumed hleft => exact hleft.elim
  · exact .array length

theorem leastSized_tuple {elements : List Ty} :
    LeastSized definitions assumed (.tuple elements) ↔
      ∀ element ∈ elements, LeastSized definitions assumed element := by
  constructor
  · intro h
    cases h with
    | scalar h => exact h.elim
    | tuple h => exact h
    | assumed hleft => exact hleft.elim
  · exact .tuple

/-- Nothing is assumed about a local struct. -/
theorem not_undetermined_struct {sym : Symbol} {definition : LocalStruct} {arguments : List Ty}
    (hdata : definitions.data sym = .localStruct definition) :
    ¬Undetermined definitions (.adt sym arguments) := by
  rw [Undetermined, hdata]
  exact id

theorem leastSized_struct {sym : Symbol} {definition : LocalStruct} {arguments : List Ty}
    {lastField : Ty} (hdata : definitions.data sym = .localStruct definition)
    (hlast : definition.fields.getLast? = some lastField)
    (harity : definition.arity = arguments.length) :
    LeastSized definitions assumed (.adt sym arguments) ↔
      LeastSized definitions assumed (definition.tail arguments lastField) := by
  constructor
  · intro h
    cases h with
    | scalar h => exact h.elim
    | enum _ h | external _ h =>
      rw [hdata] at h
      cases h
    | empty _ hdata' h =>
      rw [hdata] at hdata'
      cases hdata'
      rw [h] at hlast
      cases hlast
    | struct hdata' hlast' _ h =>
      rw [hdata] at hdata'
      cases hdata'
      rw [hlast] at hlast'
      cases hlast'
      exact h
    | assumed hleft => exact absurd hleft (not_undetermined_struct hdata)
  · exact .struct hdata hlast harity

theorem leastMetaSized_struct {sym : Symbol} {definition : LocalStruct} {arguments : List Ty}
    {lastField : Ty} (hdata : definitions.data sym = .localStruct definition)
    (hlast : definition.fields.getLast? = some lastField)
    (harity : definition.arity = arguments.length) :
    LeastMetaSized definitions assumed assumedMeta (.adt sym arguments) ↔
      LeastMetaSized definitions assumed assumedMeta (definition.tail arguments lastField) := by
  constructor
  · intro h
    cases h with
    | sized h => exact .sized ((leastSized_struct hdata hlast harity).mp h)
    | struct hdata' hlast' _ h =>
      rw [hdata] at hdata'
      cases hdata'
      rw [hlast] at hlast'
      cases hlast'
      exact h
    | assumed hleft => exact absurd hleft (not_undetermined_struct hdata)
  · exact .struct hdata hlast harity

theorem leastMetaSized_tuple {front : List Ty} {tail : Ty} :
    LeastMetaSized definitions assumed assumedMeta (.tuple (front ++ [tail])) ↔
      (∀ element ∈ front, LeastSized definitions assumed element) ∧
        LeastMetaSized definitions assumed assumedMeta tail := by
  constructor
  · intro h
    cases h with
    | sized h =>
      have hall := leastSized_tuple.mp h
      exact ⟨fun element hmem => hall element (List.mem_append_left _ hmem),
        .sized (hall tail (List.mem_append_right _ List.mem_cons_self))⟩
    | tuple hsplit hfront h =>
      obtain ⟨rfl, heq⟩ := List.append_inj' hsplit rfl
      cases heq
      exact ⟨hfront, h⟩
    | assumed hleft => exact hleft.elim
  · rintro ⟨hfront, htail⟩
    exact .tuple rfl hfront htail

end

/-- The least reading with some assumptions about opaque types. -/
def leastReading (definitions : Definitions) (assumed assumedMeta : Ty → Prop) :
    Reading definitions where
  sized := LeastSized definitions assumed
  metaSized := LeastMetaSized definitions assumed assumedMeta
  sized_scalar _ := .scalar
  not_sized_str h := by
    cases h with
    | scalar h => exact h
    | assumed hleft => exact hleft
  not_sized_slice _ h := by
    cases h with
    | scalar h => exact h
    | assumed hleft => exact hleft
  sized_array _ _ := leastSized_array
  sized_tuple _ := leastSized_tuple
  sized_enum _ arguments := .enum arguments
  sized_external _ arguments := .external arguments
  sized_empty _ _ arguments := .empty arguments
  sized_struct _ _ _ _ := leastSized_struct
  metaSized_of_sized _ := .sized
  metaSized_str := .str
  metaSized_slice := .slice
  metaSized_array element length := by
    constructor
    · intro h
      cases h with
      | sized h => exact leastSized_array.mp h
      | assumed hleft => exact hleft.elim
    · exact fun h => .sized (.array length h)
  metaSized_tuple _ _ := leastMetaSized_tuple
  metaSized_struct _ _ _ _ := leastMetaSized_struct

/-- The two functions end.  What they answer holds under every instantiation of the inference
variables, in the least reading and in every other. -/
theorem certainty_sound (definitions : Definitions) (ty : Ty) :
    ∃ sized metaSized, sizedCertainty definitions ty = some sized ∧
      metaSizedCertainty definitions ty = some metaSized ∧
      ∀ R : Reading definitions, Answers R.sized ty sized ∧ Answers R.metaSized ty metaSized := by
  let least := leastReading definitions (fun _ => False) fun _ => False
  obtain ⟨sized, hsized, -⟩ := sizedCertainty_decides least ty
  obtain ⟨metaSized, hmeta, -⟩ := metaSizedCertainty_decides least ty
  refine ⟨sized, metaSized, hsized, hmeta, fun R => ⟨?_, ?_⟩⟩
  · obtain ⟨certainty, heq, hanswers⟩ := sizedCertainty_decides R ty
    rw [hsized] at heq
    cases heq
    exact hanswers
  · obtain ⟨certainty, heq, hanswers⟩ := metaSizedCertainty_decides R ty
    rw [hmeta] at heq
    cases heq
    exact hanswers

end Sage.Check
